import EtvStation.Bumper.Shares
import EtvStation.Lib.Outcome

/-! What a fit keeps and what it leaves out. -/
namespace EtvStation.Bumper

/-- The optionals dropped until the rest fits, in the order they go. -/
def dropOrder (gap : ℕ) : (fuel : ℕ) → Live → Live
  | 0, _ => []
  | fuel + 1, live =>
    if feasible live gap then []
    else
      match victim live with
      | some v => v :: dropOrder gap fuel (live.filter fun e => e.1 ≠ v.1)
      | none => []

/-- What goes when only the fixed segments and the last looping one stay. -/
def goneFlex (live : Live) : Live :=
  let keep := ((live.filter fun e => e.2.loop).getLast?).map Prod.fst
  live.filter fun e => !(e.2.isFixed || some e.1 == keep)

/-- The names of the segments that snap to nothing. -/
def omitted (gapMs : ℕ) (fps : ℚ) : List (Segment × ℚ × Bool) → ℚ → ℕ → List String
  | [], _, _ => []
  | (segment, dur, _) :: rest, cumulative, prev =>
    let cumulative := cumulative + dur
    let boundary := if rest.isEmpty then gapMs else min (snapToFrame cumulative fps) gapMs
    (if prev < boundary then [] else [segment.name]) ++ omitted gapMs fps rest cumulative boundary

structure ResolvedTimeline where
  segments : List ResolvedSegment
  dropped : List String
  deriving DecidableEq, Repr

def indexed (timeline : List Segment) : Live := timeline.zipIdx.map Prod.swap

/-- What is left when the optionals in the way are dropped. -/
def afterDrops (timeline : List Segment) (gapMs : ℕ) : Live :=
  dropOptionals gapMs timeline.length (indexed timeline)

def keptOf (timeline : List Segment) (gapMs : ℕ) : Live :=
  let live := afterDrops timeline gapMs
  if feasible live gapMs then live else keepFixed live

/-- The lengths shared out, before the gap's end is covered. -/
def sharesOf (timeline : List Segment) (gapMs : ℕ) : List Growing :=
  let kept := keptOf timeline gapMs
  fitLengths kept (feasible (afterDrops timeline gapMs) gapMs) gapMs
    (kept.map fun e => e.2.fixedMs).sum

def lengthsOf (timeline : List Segment) (gapMs : ℕ) : List (Segment × ℚ × Bool) :=
  coverShort (sharesOf timeline gapMs) (gapMs - totalDur (sharesOf timeline gapMs))

/-- Resolve a timeline onto `gapMs`, with the names of what was left out. -/
def fitTimeline (timeline : List Segment) (gapMs : ℕ) (fps : ℚ) :
    Except FitError ResolvedTimeline := do
  let segments ← fit timeline gapMs fps
  let live := afterDrops timeline gapMs
  let gone := if feasible live gapMs then [] else goneFlex live
  return ⟨segments, (dropOrder gapMs timeline.length (indexed timeline) ++ gone).map (·.2.name) ++
    omitted gapMs fps (lengthsOf timeline gapMs) 0 0⟩

/-- A flex range is the right way round and its share is not negative. -/
def Segment.ValidFlex (s : Segment) : Prop :=
  ∀ minMs maxMs grow, s.duration = .flex minMs maxMs grow → minMs ≤ maxMs ∧ 0 ≤ grow

theorem flexError_eq_none_iff {timeline : List Segment} :
    flexError timeline = none ↔ ∀ s ∈ timeline, s.ValidFlex := by
  rw [flexError, List.findSome?_eq_none_iff]
  refine forall₂_congr fun s _ => ?_
  unfold Segment.ValidFlex
  cases hdur : s.duration with
  | fixed ms => simp
  | flex minMs maxMs grow =>
    dsimp only
    constructor
    · intro hnone minMs' maxMs' grow' heq
      cases heq
      split_ifs at hnone with hrange hgrow
      exact ⟨not_lt.mp hrange, not_lt.mp hgrow⟩
    · intro hvalid
      obtain ⟨hrange, hgrow⟩ := hvalid _ _ _ rfl
      rw [if_neg (not_lt.mpr hrange), if_neg (not_lt.mpr hgrow)]

/-- When a fit answers, and with what. -/
theorem fit_ok_iff {timeline : List Segment} {gapMs : ℕ} {fps : ℚ}
    {segments : List ResolvedSegment} : fit timeline gapMs fps = .ok segments ↔
      timeline ≠ [] ∧ gapMs ≠ 0 ∧ 0 < fps ∧ (∀ s ∈ timeline, s.ValidFlex) ∧
      ((keptOf timeline gapMs).map fun e => e.2.fixedMs).sum ≤ gapMs ∧
      segments = placeAll gapMs fps (lengthsOf timeline gapMs) 0 0 := by
  rw [← flexError_eq_none_iff]
  unfold fit
  split_ifs with hempty hgap hfps
  · simp [List.isEmpty_iff.mp hempty]
  · simp [hgap]
  · simp only [false_iff]
    exact fun h => absurd h.2.2.1 (not_lt.mpr hfps)
  · cases hflex : flexError timeline with
    | some e => simp
    | none =>
      have hne : timeline ≠ [] := fun hnil => hempty (by rw [hnil]; rfl)
      dsimp only
      change (if gapMs < ((keptOf timeline gapMs).map fun e => e.2.fixedMs).sum then _ else
        Except.ok (placeAll gapMs fps (lengthsOf timeline gapMs) 0 0)) = _ ↔ _
      split_ifs with hfixed
      · simp only [false_iff]
        exact fun h => absurd h.2.2.2.2.1 (not_le.mpr hfixed)
      · simp only [Except.ok.injEq, hne, hgap, not_le.mp hfps, not_lt.mp hfixed, ne_eq,
          not_false_eq_true, true_and]
        exact eq_comm

/-- `a` goes no later than `b`: the lower priority first, the later one on a tie. -/
def GoesFirst (a b : ℕ × Segment) : Prop :=
  a.2.priority < b.2.priority ∨ (a.2.priority = b.2.priority ∧ b.1 ≤ a.1)

theorem GoesFirst.trans {a b c : ℕ × Segment} (hab : GoesFirst a b) (hbc : GoesFirst b c) :
    GoesFirst a c := by
  unfold GoesFirst at *
  omega

theorem dropsFirst_goesFirst (a b : ℕ × Segment) :
    GoesFirst (dropsFirst a b) a ∧ GoesFirst (dropsFirst a b) b := by
  unfold dropsFirst GoesFirst
  split_ifs <;> omega

theorem dropsFirst_mem (a b : ℕ × Segment) : dropsFirst a b = a ∨ dropsFirst a b = b := by
  unfold dropsFirst
  split_ifs
  · exact Or.inr rfl
  · exact Or.inl rfl

theorem foldl_dropsFirst (e : ℕ × Segment) (es : Live) :
    es.foldl dropsFirst e ∈ e :: es ∧ ∀ o ∈ e :: es, GoesFirst (es.foldl dropsFirst e) o := by
  induction es generalizing e with
  | nil =>
    refine ⟨List.mem_cons_self, fun o ho => ?_⟩
    obtain rfl := List.mem_singleton.mp ho
    exact Or.inr ⟨rfl, le_rfl⟩
  | cons b es ih =>
    obtain ⟨hmem, hfirst⟩ := ih (dropsFirst e b)
    rw [List.foldl_cons]
    have hpick := hfirst _ List.mem_cons_self
    refine ⟨?_, fun o ho => ?_⟩
    · rcases List.mem_cons.mp hmem with heq | hin
      · rw [heq]
        rcases dropsFirst_mem e b with h | h
        · rw [h]
          exact List.mem_cons_self
        · rw [h]
          exact List.mem_cons_of_mem _ List.mem_cons_self
      · exact List.mem_cons_of_mem _ (List.mem_cons_of_mem _ hin)
    · rcases List.mem_cons.mp ho with rfl | ho
      · exact hpick.trans (dropsFirst_goesFirst _ _).1
      · rcases List.mem_cons.mp ho with rfl | ho
        · exact hpick.trans (dropsFirst_goesFirst _ _).2
        · exact hfirst o (List.mem_cons_of_mem _ ho)

theorem victim_spec {live : Live} {v : ℕ × Segment} (h : victim live = some v) :
    v ∈ live ∧ v.2.optional = true ∧ ∀ o ∈ live, o.2.optional = true → GoesFirst v o := by
  unfold victim at h
  cases hopt : live.filter fun e => e.2.optional with
  | nil =>
    rw [hopt] at h
    cases h
  | cons e es =>
    rw [hopt] at h
    obtain rfl := Option.some.inj h
    obtain ⟨hmem, hfirst⟩ := foldl_dropsFirst e es
    rw [← hopt] at hmem hfirst
    refine ⟨(List.mem_filter.mp hmem).1, (List.mem_filter.mp hmem).2, fun o ho hoptional => ?_⟩
    exact hfirst o (List.mem_filter.mpr ⟨ho, hoptional⟩)

theorem victim_eq_none {live : Live} (h : victim live = none) :
    ∀ e ∈ live, e.2.optional = false := by
  unfold victim at h
  cases hopt : live.filter fun e => e.2.optional with
  | nil =>
    intro e he
    simpa using List.filter_eq_nil_iff.mp hopt e he
  | cons e es =>
    rw [hopt] at h
    cases h

/-- Optionals go one after another, each while what is left does not fit. -/
def DropsInOrder (gap : ℕ) : Live → Live → Live → Prop
  | live, [], rest => rest = live
  | live, v :: victims, rest => ¬ feasible live gap ∧ v ∈ live ∧ v.2.optional = true ∧
      (∀ o ∈ live, o.2.optional = true → GoesFirst v o) ∧
      DropsInOrder gap (live.filter fun e => e.1 ≠ v.1) victims rest

theorem dropOrder_inOrder {gap fuel : ℕ} {live : Live}
    (hfuel : live.countP (fun e => e.2.optional) ≤ fuel) :
    DropsInOrder gap live (dropOrder gap fuel live) (dropOptionals gap fuel live) ∧
      (feasible (dropOptionals gap fuel live) gap = true ∨
        ∀ e ∈ dropOptionals gap fuel live, e.2.optional = false) := by
  induction fuel generalizing live with
  | zero =>
    refine ⟨rfl, Or.inr fun e he => ?_⟩
    have := List.countP_eq_zero.mp (Nat.le_zero.mp hfuel) e he
    simpa using this
  | succ fuel ih =>
    rw [dropOrder, dropOptionals]
    split_ifs with hfits
    · exact ⟨rfl, Or.inl hfits⟩
    · cases hv : victim live with
      | none => exact ⟨rfl, Or.inr (victim_eq_none hv)⟩
      | some v =>
        obtain ⟨hmem, hoptional, hfirst⟩ := victim_spec hv
        have hfewer : (live.filter fun e => e.1 ≠ v.1).countP (fun e => e.2.optional) <
            live.countP fun e => e.2.optional := by
          rw [List.countP_eq_length_filter, List.countP_eq_length_filter, List.filter_comm,
            List.length_filter_lt_length_iff_exists]
          exact ⟨v, List.mem_filter.mpr ⟨hmem, hoptional⟩, by simp⟩
        obtain ⟨hrest, hend⟩ := @ih (live.filter fun e => e.1 ≠ v.1) (by omega)
        exact ⟨⟨hfits, hmem, hoptional, hfirst, hrest⟩, hend⟩

/-- Indices no two entries share. -/
def Live.Keyed (live : Live) : Prop := (live.map Prod.fst).Nodup

theorem Live.Keyed.filter {live : Live} (h : live.Keyed) (p : ℕ × Segment → Bool) :
    Live.Keyed (live.filter p) := h.sublist (List.filter_sublist.map _)

theorem indexed_keyed (timeline : List Segment) : (indexed timeline).Keyed := by
  unfold Live.Keyed indexed
  rw [List.map_map]
  have hidx : (Prod.fst ∘ Prod.swap : Segment × ℕ → ℕ) = Prod.snd := rfl
  rw [hidx, List.zipIdx_map_snd]
  exact List.nodup_range'

theorem indexed_snd (timeline : List Segment) : (indexed timeline).map Prod.snd = timeline := by
  unfold indexed
  rw [List.map_map]
  have hidx : (Prod.snd ∘ Prod.swap : Segment × ℕ → Segment) = Prod.fst := rfl
  rw [hidx, List.zipIdx_map_fst]

theorem DropsInOrder.perm {gap : ℕ} {live victims rest : Live}
    (h : DropsInOrder gap live victims rest) (hkeyed : live.Keyed) :
    (rest ++ victims).Perm live ∧ rest.Sublist live ∧
      rest.filter (fun e => !e.2.optional) = live.filter fun e => !e.2.optional := by
  induction victims generalizing live with
  | nil =>
    obtain rfl : rest = live := h
    exact ⟨by simp, List.Sublist.refl _, rfl⟩
  | cons v victims ih =>
    obtain ⟨-, hmem, hoptional, -, hrest⟩ := h
    obtain ⟨hperm, hsub, hkept⟩ := ih hrest (hkeyed.filter _)
    have hinj := List.inj_on_of_nodup_map hkeyed
    have hone : live.filter (fun e => !decide (e.1 ≠ v.1)) = [v] := by
      have hsame : live.filter (fun e => !decide (e.1 ≠ v.1)) = live.filter (fun e => e = v) := by
        refine List.filter_congr fun e he => ?_
        simp only [ne_eq, decide_not, Bool.not_not, decide_eq_decide]
        exact ⟨fun heq => hinj he hmem heq, fun heq => by rw [heq]⟩
      have hnodup : live.Nodup := List.Nodup.of_map _ hkeyed
      rw [hsame, List.filter_eq, List.count_eq_one_of_mem hnodup hmem]
      rfl
    refine ⟨?_, hsub.trans List.filter_sublist, ?_⟩
    · have hsplit := List.filter_append_perm (fun e => decide (e.1 ≠ v.1)) live
      rw [hone] at hsplit
      refine (List.perm_middle.trans ?_)
      refine (List.Perm.cons v hperm).trans ?_
      exact (List.perm_append_singleton v _).symm.trans hsplit
    · rw [hkept, List.filter_filter]
      refine List.filter_congr fun e he => ?_
      by_cases heq : e.1 = v.1
      · have := hinj he hmem heq
        simp [this, hoptional]
      · simp [heq]

/-- What the drops leave of a timeline. -/
structure Dropped (timeline : List Segment) (gapMs : ℕ) (victims rest : Live) : Prop where
  inOrder : DropsInOrder gapMs (indexed timeline) victims rest
  done : feasible rest gapMs = true ∨ ∀ e ∈ rest, e.2.optional = false

theorem afterDrops_dropped (timeline : List Segment) (gapMs : ℕ) :
    Dropped timeline gapMs (dropOrder gapMs timeline.length (indexed timeline))
      (afterDrops timeline gapMs) := by
  have hcount : (indexed timeline).countP (fun e => e.2.optional) ≤ timeline.length := by
    refine List.countP_le_length.trans ?_
    simp [indexed]
  obtain ⟨hinOrder, hdone⟩ := dropOrder_inOrder hcount
  exact ⟨hinOrder, hdone⟩

/-- The least that fixed segments no drop can take come to. -/
def boundFixed (timeline : List Segment) : ℕ :=
  ((timeline.filter fun s => !s.optional).map Segment.fixedMs).sum

theorem fixedMs_le_needed (s : Segment) : s.fixedMs ≤ s.needed := by
  unfold Segment.fixedMs Segment.needed
  cases s.duration with
  | fixed ms => exact le_rfl
  | flex minMs maxMs grow => exact Nat.zero_le _

theorem sum_filter_le {α : Type} (f : α → ℕ) (p : α → Bool) (l : List α) :
    ((l.filter p).map f).sum ≤ (l.map f).sum :=
  (List.filter_sublist.map f).sum_le_sum fun _ _ => Nat.zero_le _

theorem sum_fixed_le (live : Live) :
    (live.map fun e => e.2.fixedMs).sum ≤ (live.map fun e => e.2.needed).sum :=
  List.sum_le_sum fun e _ => fixedMs_le_needed e.2

section Rest

variable {timeline : List Segment} {gapMs : ℕ} {victims rest : Live}

theorem Dropped.boundFixed_eq (h : Dropped timeline gapMs victims rest) :
    boundFixed timeline =
      ((rest.filter fun e => !e.2.optional).map fun e => e.2.fixedMs).sum := by
  obtain ⟨-, -, hkept⟩ := h.inOrder.perm (indexed_keyed timeline)
  have hmap : ((indexed timeline).filter fun e => !e.2.optional).map Prod.snd =
      timeline.filter fun s => !s.optional := by
    conv_rhs => rw [← indexed_snd timeline, List.filter_map]
    rfl
  rw [hkept, boundFixed, ← hmap, List.map_map]
  rfl

/-- The fixed segments of what is kept are too long exactly when those that cannot be dropped
are. -/
theorem Dropped.fixed_le_iff (h : Dropped timeline gapMs victims rest) :
    (((if feasible rest gapMs then rest else keepFixed rest).map fun e => e.2.fixedMs).sum ≤
      gapMs) ↔ boundFixed timeline ≤ gapMs := by
  rw [h.boundFixed_eq]
  split_ifs with hfits
  · have hneeded : (rest.map fun e => e.2.needed).sum ≤ gapMs := by
      simpa [feasible] using hfits
    have hfixed := sum_fixed_le rest
    have hless := sum_filter_le (fun e : ℕ × Segment => e.2.fixedMs) (fun e => !e.2.optional) rest
    exact iff_of_true (by omega) (by omega)
  · have hnone : ∀ e ∈ rest, e.2.optional = false := h.done.resolve_left (by simpa using hfits)
    have hall : rest.filter (fun e => !e.2.optional) = rest := by
      refine List.filter_eq_self.mpr fun e he => ?_
      simp [hnone e he]
    have hkeep : ∀ (p : ℕ × Segment → Bool) (live : Live),
        (∀ e ∈ live, p e = false → e.2.isFixed = false) →
        ((live.filter p).map fun e => e.2.fixedMs).sum =
          (live.map fun e => e.2.fixedMs).sum := by
      intro p live hp
      induction live with
      | nil => rfl
      | cons e live ih =>
        have hrest := ih fun e' he' => hp e' (List.mem_cons_of_mem _ he')
        cases hpe : p e with
        | true => rw [List.filter_cons_of_pos hpe, List.map_cons, List.sum_cons, hrest,
            List.map_cons, List.sum_cons]
        | false =>
          have hflex := hp e List.mem_cons_self hpe
          have hzero : e.2.fixedMs = 0 := by
            unfold Segment.isFixed at hflex
            unfold Segment.fixedMs
            cases hdur : e.2.duration with
            | fixed ms => simp [hdur] at hflex
            | flex minMs maxMs grow => rfl
          rw [List.filter_cons_of_neg (by simp [hpe]), hrest, List.map_cons, List.sum_cons, hzero,
            Nat.zero_add]
    have hsame : ((keepFixed rest).map fun e => e.2.fixedMs).sum =
        (rest.map fun e => e.2.fixedMs).sum := by
      refine hkeep _ rest fun e _ hgone => ?_
      simp only [Bool.or_eq_false_iff] at hgone
      exact hgone.1
    rw [hall, hsame]

end Rest

/-- Segments placed and segments that snap to nothing are all that were to be placed. -/
theorem placeAll_names (gapMs : ℕ) (fps : ℚ) (lengths : List (Segment × ℚ × Bool)) (cumulative : ℚ)
    (prev : ℕ) : ((placeAll gapMs fps lengths cumulative prev).map (·.segment.name) ++
      omitted gapMs fps lengths cumulative prev).Perm (lengths.map (·.1.name)) := by
  induction lengths generalizing cumulative prev with
  | nil => exact List.Perm.refl _
  | cons e lengths ih =>
    obtain ⟨segment, dur, filler⟩ := e
    rw [placeAll, omitted]
    set boundary := if lengths.isEmpty then gapMs
      else min (snapToFrame (cumulative + dur) fps) gapMs
    have hrest := ih (cumulative + dur) boundary
    rw [List.map_append, List.map_cons]
    split_ifs
    · exact List.Perm.cons _ hrest
    · rw [List.map_nil, List.nil_append, List.singleton_append]
      exact List.perm_middle.trans (List.Perm.cons _ hrest)

theorem placeAll_order (gapMs : ℕ) (fps : ℚ) (lengths : List (Segment × ℚ × Bool)) (cumulative : ℚ)
    (prev : ℕ) : ((placeAll gapMs fps lengths cumulative prev).map
      fun s => (s.segment, s.filler)).Sublist (lengths.map fun e => (e.1, e.2.2)) := by
  induction lengths generalizing cumulative prev with
  | nil => exact List.Sublist.refl _
  | cons e lengths ih =>
    obtain ⟨segment, dur, filler⟩ := e
    rw [placeAll, List.map_append, List.map_cons]
    dsimp only
    by_cases hroom : prev < if lengths.isEmpty then gapMs
        else min (snapToFrame (cumulative + dur) fps) gapMs
    · rw [if_pos hroom]
      exact (ih _ _).cons_cons _
    · rw [if_neg hroom]
      exact (ih _ _).cons _

/-- The time of frame `n`, to the millisecond. -/
def frameMs (n : ℕ) (fps : ℚ) : ℕ := roundHalfUp (n * 1000 / fps)

theorem placeAll_frames (gapMs : ℕ) (fps : ℚ) (lengths : List (Segment × ℚ × Bool)) (cumulative : ℚ)
    (prev : ℕ) : ∀ s ∈ placeAll gapMs fps lengths cumulative prev,
      s.startMs + s.durationMs = gapMs ∨ ∃ n, s.startMs + s.durationMs = frameMs n fps := by
  induction lengths generalizing cumulative prev with
  | nil => exact fun s hs => absurd hs List.not_mem_nil
  | cons e lengths ih =>
    obtain ⟨segment, dur, filler⟩ := e
    rw [placeAll]
    intro s hs
    rcases List.mem_append.mp hs with hs | hs
    · set boundary := if lengths.isEmpty then gapMs
        else min (snapToFrame (cumulative + dur) fps) gapMs with hboundary
      have hcase : boundary = gapMs ∨ ∃ n, boundary = frameMs n fps := by
        rw [hboundary]
        split_ifs
        · exact Or.inl rfl
        · rcases min_choice (snapToFrame (cumulative + dur) fps) gapMs with h | h
          · exact Or.inr ⟨_, h⟩
          · exact Or.inl h
      by_cases hroom : prev < boundary
      · rw [if_pos hroom] at hs
        obtain rfl := List.mem_singleton.mp hs
        have hend : prev + (boundary - prev) = boundary := by omega
        rw [← hend] at hcase
        exact hcase
      · rw [if_neg hroom] at hs
        exact absurd hs List.not_mem_nil
    · exact ih _ _ s hs

/-- All but the last of consecutive segments end before the gap does. -/
theorem PlacedFrom.dropLast_lt {s f : ℕ} {segments : List ResolvedSegment}
    (h : PlacedFrom s f segments) : ∀ a ∈ segments.dropLast, a.startMs + a.durationMs < f := by
  have hend : ∀ {s f : ℕ} {l : List ResolvedSegment}, PlacedFrom s f l → l ≠ [] → s < f := by
    intro s f l
    induction l generalizing s with
    | nil => exact fun _ hne => absurd rfl hne
    | cons a l ih =>
      intro hplaced _
      obtain ⟨-, hpos, hrest⟩ := hplaced
      cases l with
      | nil =>
        have : s + a.durationMs = f := hrest
        omega
      | cons b l =>
        have := ih hrest (by simp)
        omega
  induction segments generalizing s with
  | nil => exact fun a ha => absurd ha List.not_mem_nil
  | cons b segments ih =>
    obtain ⟨hstart, -, hrest⟩ := h
    cases segments with
    | nil => exact fun a ha => absurd ha List.not_mem_nil
    | cons c segments =>
      rw [List.dropLast_cons_cons]
      refine List.forall_mem_cons.mpr ⟨?_, ih hrest⟩
      rw [hstart]
      exact hend hrest (by simp)

theorem fitLengths_segment (live : Live) (fits : Bool) (gapMs fixedMs : ℕ) (h : fits = false) :
    (fitLengths live fits gapMs fixedMs).map Growing.segment = live.map Prod.snd := by
  unfold fitLengths
  rw [h]
  simp only [Bool.false_eq_true, if_false, List.map_map]
  refine List.map_congr_left fun e _ => ?_
  simp only [Function.comp_apply]
  split_ifs <;> rfl

theorem needed_split (live : Live) : (live.map fun e => e.2.needed).sum =
    (live.map fun e => e.2.fixedMs).sum +
      ((live.filter fun e => !e.2.isFixed).map fun e => e.2.needed).sum := by
  induction live with
  | nil => rfl
  | cons e live ih =>
    rw [List.map_cons, List.sum_cons, List.map_cons, List.sum_cons, ih]
    cases hdur : e.2.duration with
    | fixed ms =>
      have hone : e.2.isFixed = true := by simp [Segment.isFixed, hdur]
      rw [List.filter_cons_of_neg (by simp [hone])]
      simp only [Segment.needed, Segment.fixedMs, hdur]
      omega
    | flex minMs maxMs grow =>
      have hone : e.2.isFixed = false := by simp [Segment.isFixed, hdur]
      rw [List.filter_cons_of_pos (by simp [hone]), List.map_cons, List.sum_cons]
      simp only [Segment.needed, Segment.fixedMs, hdur]
      omega

theorem totalDur_needed (live : Live) :
    totalDur (live.map fun e => { segment := e.2, dur := e.2.needed : Growing }) =
      ((live.map fun e => e.2.needed).sum : ℕ) := by
  induction live with
  | nil => simp [totalDur]
  | cons e live ih =>
    rw [List.map_cons, totalDur_cons, ih, List.map_cons, List.sum_cons]
    push_cast
    rfl

theorem map_modify_same {α γ : Type} {f : α → γ} {g : α → α} (h : ∀ a, f (g a) = f a)
    (l : List α) (i : ℕ) : (l.modify i g).map f = l.map f := by
  refine List.ext_getElem? fun j => ?_
  rw [List.getElem?_map, List.getElem?_map, List.getElem?_modify]
  cases l[j]? with
  | none => rfl
  | some a =>
    simp only [Option.map_some]
    split_ifs
    · exact congrArg some (h a)
    · rfl

/-- When the fixed segments and the flex minimums fit, the lengths are shared out in full. -/
theorem fitLengths_fills {live : Live} {gapMs : ℕ} (hvalid : ∀ e ∈ live, e.2.ValidFlex)
    (hfits : feasible live gapMs = true) :
    let shares := fitLengths live true gapMs (live.map fun e => e.2.fixedMs).sum
    shares.map Growing.segment = live.map Prod.snd ∧ WaterFilled shares gapMs := by
  dsimp only
  unfold fitLengths
  dsimp only
  rw [if_pos rfl]
  set start := live.map fun e => { segment := e.2, dur := e.2.needed : Growing } with hstart
  set fixed := (live.map fun e => e.2.fixedMs).sum with hfixed
  set flexMin := ((live.filter fun e => !e.2.isFixed).map fun e => e.2.needed).sum with hflexMin
  have hneeded : (live.map fun e => e.2.needed).sum ≤ gapMs := by simpa [feasible] using hfits
  have hsplit : (live.map fun e => e.2.needed).sum = fixed + flexMin := needed_split live
  have hat : ∀ g ∈ start, g.At 0 := by
    intro g hg
    obtain ⟨e, he, rfl⟩ := List.mem_map.mp hg
    unfold Growing.At
    cases hdur : e.2.duration with
    | fixed ms => simp [Segment.needed, hdur]
    | flex minMs maxMs grow =>
      obtain ⟨hrange, hgrow⟩ := hvalid e he _ _ _ hdur
      exact ⟨hrange, hgrow, by simp [Segment.needed, hdur]⟩
  have hdur : totalDur start = ((fixed + flexMin : ℕ) : ℚ) := by
    rw [← hsplit]
    exact totalDur_needed live
  have hgap : ((gapMs - fixed : ℕ) : ℚ) = gapMs - fixed := by
    rw [Nat.cast_sub (by omega)]
  have hspare : (0 : ℚ) ≤ (gapMs - fixed : ℕ) - flexMin := by
    rw [hgap]
    have : ((fixed + flexMin : ℕ) : ℚ) ≤ gapMs := by exact_mod_cast hsplit ▸ hneeded
    push_cast at this
    linarith
  have hcount : start.countP Growing.open_ < live.length + 1 := by
    have hlen : start.length = live.length := by simp [hstart]
    have : start.countP Growing.open_ ≤ start.length := List.countP_le_length
    omega
  obtain ⟨hsegments, hfilled⟩ := growFlex_fills (live.length + 1) hat le_rfl hspare
    (by rw [zero_mul]; exact hspare) hcount
  refine ⟨?_, ?_⟩
  · rw [hsegments, hstart, List.map_map]
    rfl
  · have htotal : totalDur start + ((gapMs - fixed : ℕ) - flexMin) = (gapMs : ℚ) := by
      rw [hdur, hgap]
      push_cast
      ring
    rwa [htotal] at hfilled

/-- Covering the gap's end lengthens one segment, or appends the filler. -/
theorem coverShort_order (gs : List Growing) (short : ℚ) :
    (coverShort gs short).map (fun e => (e.1, e.2.2)) = gs.map (fun g => (g.segment, false)) ∨
      (coverShort gs short).map (fun e => (e.1, e.2.2)) =
        gs.map (fun g => (g.segment, false)) ++ [(fillerSegment, true)] := by
  have hplain : (gs.map fun g => (g.segment, g.dur, false)).map
      (fun e : Segment × ℚ × Bool => (e.1, e.2.2)) = gs.map fun g => (g.segment, false) := by
    rw [List.map_map]
    rfl
  unfold coverShort
  dsimp only
  split_ifs
  · exact Or.inl hplain
  · split
    · left
      rw [← hplain]
      refine map_modify_same (fun e => ?_) _ _
      rfl
    · right
      rw [List.map_append, hplain]
      rfl

/-- What a resolved timeline is to be. -/
structure FitExact (timeline : List Segment) (gapMs : ℕ) (fps : ℚ) (r : ResolvedTimeline) :
    Prop where
  /-- Consecutive from 0 to the end of the gap, none of them empty. -/
  placed : PlacedFrom 0 gapMs r.segments
  frames : ∀ s ∈ r.segments.dropLast, ∃ n, s.startMs + s.durationMs = frameMs n fps
  order : ((r.segments.filter fun s => !s.filler).map (·.segment)).Sublist timeline
  /-- Every segment is kept or named, and one filler at most. -/
  names : ∃ filler, (filler = [] ∨ filler = [FILLER_NAME]) ∧
    (r.segments.map (·.segment.name) ++ r.dropped).Perm (timeline.map (·.name) ++ filler)
  /-- The optionals go first. If the rest fits then, its flex segments are filled to one level, and
  besides the optionals only what snaps to nothing is left out. -/
  drops : ∃ victims rest others, Dropped timeline gapMs victims rest ∧
    r.dropped = victims.map (·.2.name) ++ others ∧
    (feasible rest gapMs = true → ∃ shares : List Growing,
      shares.map Growing.segment = rest.map Prod.snd ∧ WaterFilled shares gapMs ∧
      let lengths := coverShort shares (gapMs - totalDur shares)
      r.segments = placeAll gapMs fps lengths 0 0 ∧ others = omitted gapMs fps lengths 0 0)

section Fit

variable {timeline : List Segment} (gapMs : ℕ)

theorem afterDrops_sublist : (afterDrops timeline gapMs).Sublist (indexed timeline) :=
  ((afterDrops_dropped timeline gapMs).inOrder.perm (indexed_keyed timeline)).2.1

theorem keptOf_sublist : ((keptOf timeline gapMs).map Prod.snd).Sublist timeline := by
  have hkept : (keptOf timeline gapMs).Sublist (indexed timeline) := by
    unfold keptOf
    dsimp only
    split_ifs
    · exact afterDrops_sublist gapMs
    · exact List.filter_sublist.trans (afterDrops_sublist gapMs)
  have hmap := hkept.map Prod.snd
  rwa [indexed_snd] at hmap

theorem afterDrops_valid (hvalid : ∀ s ∈ timeline, s.ValidFlex) :
    ∀ e ∈ afterDrops timeline gapMs, e.2.ValidFlex := by
  intro e he
  have hmem := List.mem_map_of_mem (f := Prod.snd) ((afterDrops_sublist gapMs).subset he)
  rw [indexed_snd] at hmem
  exact hvalid e.2 hmem

theorem sharesOf_segment (hvalid : ∀ s ∈ timeline, s.ValidFlex) :
    (sharesOf timeline gapMs).map Growing.segment = (keptOf timeline gapMs).map Prod.snd := by
  unfold sharesOf
  dsimp only
  cases hfits : feasible (afterDrops timeline gapMs) gapMs with
  | false => exact fitLengths_segment _ _ _ _ rfl
  | true =>
    have hkept : keptOf timeline gapMs = afterDrops timeline gapMs := by
      unfold keptOf
      dsimp only
      rw [if_pos hfits]
    rw [hkept]
    exact (fitLengths_fills (afterDrops_valid gapMs hvalid) hfits).1

theorem lengthsOf_order (hvalid : ∀ s ∈ timeline, s.ValidFlex) :
    ∃ filler, (filler = [] ∨ filler = [(fillerSegment, true)]) ∧
      (lengthsOf timeline gapMs).map (fun e => (e.1, e.2.2)) =
        (keptOf timeline gapMs).map (fun e => (e.2, false)) ++ filler := by
  have hshares : (sharesOf timeline gapMs).map (fun g => (g.segment, false)) =
      (keptOf timeline gapMs).map fun e => (e.2, false) := by
    have := congrArg (List.map fun s : Segment => (s, false)) (sharesOf_segment gapMs hvalid)
    rwa [List.map_map, List.map_map] at this
  unfold lengthsOf
  rcases coverShort_order (sharesOf timeline gapMs)
    (gapMs - totalDur (sharesOf timeline gapMs)) with hplain | hfiller
  · exact ⟨[], Or.inl rfl, by rw [hplain, hshares, List.append_nil]⟩
  · exact ⟨_, Or.inr rfl, by rw [hfiller, hshares]⟩

/-- What is kept, what goes with the flex segments and what was dropped are the timeline. -/
theorem kept_perm : ((keptOf timeline gapMs).map (·.2.name) ++
    (dropOrder gapMs timeline.length (indexed timeline) ++
      if feasible (afterDrops timeline gapMs) gapMs then []
      else goneFlex (afterDrops timeline gapMs)).map (·.2.name)).Perm
        (timeline.map (·.name)) := by
  obtain ⟨hperm, -, -⟩ := (afterDrops_dropped timeline gapMs).inOrder.perm (indexed_keyed timeline)
  have hnames : timeline.map (·.name) = (indexed timeline).map (·.2.name) := by
    conv_lhs => rw [← indexed_snd timeline, List.map_map]
    rfl
  rw [hnames, ← List.map_append]
  refine List.Perm.map _ ?_
  refine List.Perm.trans ?_ hperm
  unfold keptOf
  dsimp only
  split_ifs
  · rw [List.append_nil]
  · rw [← List.append_assoc]
    refine (List.Perm.append_right _ List.perm_append_comm).trans ?_
    rw [List.append_assoc]
    refine List.perm_append_comm.trans ?_
    exact List.Perm.append_right _ (List.filter_append_perm _ _)

end Fit

/-- The flex solver is exact: it fails just where it says, and what it resolves fills the gap on
the frame grid, keeps the order, accounts for every segment and fills the flex lengths to one
level. -/
theorem fitTimeline_exact (timeline : List Segment) (gapMs : ℕ) {fps : ℚ} (hfps : 0 < fps) :
    ((∃ r, fitTimeline timeline gapMs fps = .ok r) ↔ timeline ≠ [] ∧ gapMs ≠ 0 ∧
      (∀ s ∈ timeline, s.ValidFlex) ∧ boundFixed timeline ≤ gapMs) ∧
    ∀ r, fitTimeline timeline gapMs fps = .ok r → FitExact timeline gapMs fps r := by
  have hdropped := afterDrops_dropped timeline gapMs
  have hfixed := hdropped.fixed_le_iff
  change (((keptOf timeline gapMs).map fun e => e.2.fixedMs).sum ≤ gapMs) ↔ _ at hfixed
  constructor
  · rw [← hfixed]
    constructor
    · rintro ⟨r, hr⟩
      obtain ⟨segments, hsegments, -⟩ := Lib.bind_eq_ok.mp hr
      obtain ⟨hne, hgap, -, hvalid, hle, -⟩ := fit_ok_iff.mp hsegments
      exact ⟨hne, hgap, hvalid, hle⟩
    · rintro ⟨hne, hgap, hvalid, hle⟩
      have hfit := fit_ok_iff.mpr ⟨hne, hgap, hfps, hvalid, hle, rfl⟩
      exact ⟨_, by rw [fitTimeline, hfit]; rfl⟩
  · intro r hr
    obtain ⟨segments, hsegments, heq⟩ := Lib.bind_eq_ok.mp hr
    obtain rfl := (Except.ok.inj heq).symm
    obtain ⟨-, hplaced⟩ := fit_placed hsegments
    obtain ⟨-, -, -, hvalid, -, hall⟩ := fit_ok_iff.mp hsegments
    obtain ⟨filler, hfiller, horder⟩ := lengthsOf_order gapMs hvalid
    constructor
    · exact hplaced
    · intro s hs
      have hlt := hplaced.dropLast_lt s hs
      have hmem := List.mem_of_mem_dropLast hs
      rw [hall] at hmem
      rcases placeAll_frames _ _ _ _ _ s hmem with hend | hframe
      · omega
      · exact hframe
    · have hsub := placeAll_order gapMs fps (lengthsOf timeline gapMs) 0 0
      rw [← hall, horder] at hsub
      have hplain := (hsub.filter fun e => !e.2).map Prod.fst
      rw [List.filter_map, List.map_map, List.filter_append, List.map_append] at hplain
      have hnone : (filler.filter fun e => !e.2) = [] := by
        rcases hfiller with rfl | rfl
        · rfl
        · rfl
      have hkept : (((keptOf timeline gapMs).map fun e => (e.2, false)).filter
          fun e => !e.2).map Prod.fst = (keptOf timeline gapMs).map Prod.snd := by
        rw [List.filter_eq_self.mpr (by simp), List.map_map]
        rfl
      rw [hnone, hkept, List.map_nil, List.append_nil] at hplain
      exact hplain.trans (keptOf_sublist gapMs)
    · refine ⟨filler.map (·.1.name), ?_, ?_⟩
      · rcases hfiller with rfl | rfl
        · exact Or.inl rfl
        · exact Or.inr rfl
      · have hnames := placeAll_names gapMs fps (lengthsOf timeline gapMs) 0 0
        rw [← hall] at hnames
        have hlengths : (lengthsOf timeline gapMs).map (·.1.name) =
            (keptOf timeline gapMs).map (·.2.name) ++ filler.map (·.1.name) := by
          have := congrArg (List.map fun e : Segment × Bool => e.1.name) horder
          rw [List.map_map, List.map_append, List.map_map] at this
          exact this
        rw [hlengths] at hnames
        have hkept := @kept_perm timeline gapMs
        refine List.perm_iff_count.mpr fun name => ?_
        have hplacedCount := hnames.count_eq name
        have hkeptCount := hkept.count_eq name
        simp only [List.count_append] at hplacedCount hkeptCount ⊢
        omega
    · refine ⟨_, _, _, hdropped, by rw [List.map_append, List.append_assoc], fun hfits => ?_⟩
      have hkept : keptOf timeline gapMs = afterDrops timeline gapMs := by
        unfold keptOf
        dsimp only
        rw [if_pos hfits]
      have hshares : sharesOf timeline gapMs = fitLengths (afterDrops timeline gapMs) true gapMs
          ((afterDrops timeline gapMs).map fun e => e.2.fixedMs).sum := by
        unfold sharesOf
        dsimp only
        rw [hkept, hfits]
      obtain ⟨hsegment, hfilled⟩ := fitLengths_fills (afterDrops_valid gapMs hvalid) hfits
      rw [← hshares] at hsegment hfilled
      refine ⟨_, hsegment, hfilled, hall, ?_⟩
      rw [if_pos hfits, List.map_nil, List.nil_append]
      rfl

/-- A card that stretches and an optional clip too long for the gap. -/
def cardTimeline : List Segment :=
  [⟨"card", .black, .flex 1000 4000 1, false, false, 0⟩,
    ⟨"clip", .clip "/m/a.mkv" 0 6000, .fixed 6000, false, true, 0⟩]

theorem fitTimeline_exact_card :
    ∃ r, fitTimeline cardTimeline 5000 30 = .ok r ∧ FitExact cardTimeline 5000 30 r := by
  obtain ⟨hok, hexact⟩ := fitTimeline_exact cardTimeline 5000 (show (0 : ℚ) < 30 by norm_num)
  have hvalid : ∀ s ∈ cardTimeline, s.ValidFlex := by
    intro s hs minMs maxMs grow hdur
    simp only [cardTimeline, List.mem_cons, List.not_mem_nil, or_false] at hs
    rcases hs with rfl | rfl
    · cases hdur
      norm_num
    · cases hdur
  obtain ⟨r, hr⟩ := hok.mpr ⟨by simp [cardTimeline], by norm_num, hvalid, by decide⟩
  exact ⟨r, hr, hexact r hr⟩

end EtvStation.Bumper
