import EtvStation.Reconcile
import Mathlib.Algebra.Order.Ring.Rat
import Mathlib.Data.Rat.Floor
import Mathlib.Tactic.Positivity
import Mathlib.Algebra.Order.BigOperators.Group.List

/-! Fitting a bumper's timeline to a gap. Lengths are shared in exact fractions of a
millisecond; every boundary is snapped to a frame, and the last one is the end of the gap. -/
namespace EtvStation.Bumper

inductive SegmentSource where
  | clip (path : String) (inMs outMs : ℕ)
  | lavfi (params : String)
  | still (imagePath : String)
  | render (path : String)
  | pending (path standIn : String)
  | http (url : String) (inMs outMs : ℕ)
  deriving DecidableEq, Repr

def SegmentSource.black : SegmentSource := .lavfi "color=c=black"

/-- A segment's length: exact, or a range with its share of spare time. -/
inductive SegmentDuration where
  | fixed (ms : ℕ)
  | flex (minMs maxMs : ℕ) (grow : ℚ)
  deriving DecidableEq, Repr

structure Segment where
  name : String
  source : SegmentSource
  duration : SegmentDuration
  loop : Bool := false
  optional : Bool := false
  priority : ℕ := 0
  deriving DecidableEq, Repr

def FILLER_NAME : String := "filler"

structure ResolvedSegment where
  segment : Segment
  startMs : ℕ
  durationMs : ℕ
  filler : Bool := false
  deriving DecidableEq, Repr

inductive FitError where
  | empty
  | zeroGap
  | badFps (fps : ℚ)
  | badFlex (segment : String) (minMs maxMs : ℕ)
  | badGrow (segment : String) (grow : ℚ)
  | fixedExceedsGap (fixedMs gapMs : ℕ)
  deriving DecidableEq, Repr

def Segment.needed (s : Segment) : ℕ :=
  match s.duration with
  | .fixed ms => ms
  | .flex minMs _ _ => minMs

def Segment.isFixed (s : Segment) : Bool :=
  match s.duration with
  | .fixed _ => true
  | .flex .. => false

def Segment.fixedMs (s : Segment) : ℕ :=
  match s.duration with
  | .fixed ms => ms
  | .flex .. => 0

abbrev Live := List (ℕ × Segment)

def feasible (live : Live) (gap : ℕ) : Bool := (live.map fun e => e.2.needed).sum ≤ gap

/-- Of two optionals the one to drop first: the lower priority, the later one on a tie. -/
def dropsFirst (a b : ℕ × Segment) : ℕ × Segment :=
  if b.2.priority < a.2.priority ∨ (b.2.priority = a.2.priority ∧ a.1 < b.1) then b else a

def victim (live : Live) : Option (ℕ × Segment) :=
  match live.filter fun e => e.2.optional with
  | [] => none
  | e :: es => some (es.foldl dropsFirst e)

/-- Drop optionals until the rest fits. Every round drops one, so the fuel is how many there
are. -/
def dropOptionals (gap : ℕ) : (fuel : ℕ) → Live → Live
  | 0, live => live
  | fuel + 1, live =>
    if feasible live gap then live
    else
      match victim live with
      | some v => dropOptionals gap fuel (live.filter fun e => e.1 ≠ v.1)
      | none => live

/-- Still infeasible: only the fixed segments and the last looping one stay. -/
def keepFixed (live : Live) : Live :=
  let keep := ((live.filter fun e => e.2.loop).getLast?).map Prod.fst
  live.filter fun e => e.2.isFixed || some e.1 == keep

/-- A segment with the length it has been given so far. -/
structure Growing where
  segment : Segment
  dur : ℚ
  frozen : Bool := false

/-- The share a segment still takes part with. -/
def Growing.weight (g : Growing) : ℚ :=
  match g.segment.duration with
  | .flex _ _ grow => if g.frozen then 0 else grow
  | .fixed _ => 0

/-- Freeze every segment its share would take past its longest. -/
def freezeRound (weight : ℚ) : List Growing → ℚ → List Growing × ℚ × Bool
  | [], spare => ([], spare, false)
  | g :: gs, spare =>
    match g.segment.duration with
    | .flex minMs maxMs grow =>
      if !g.frozen && maxMs < minMs + spare * grow / weight then
        let (gs, spare, _) := freezeRound weight gs (spare - (maxMs - minMs))
        ({ g with dur := maxMs, frozen := true } :: gs, spare, true)
      else
        let (gs, spare, froze) := freezeRound weight gs spare
        (g :: gs, spare, froze)
    | .fixed _ =>
      let (gs, spare, froze) := freezeRound weight gs spare
      (g :: gs, spare, froze)

def Growing.share (spare weight : ℚ) (g : Growing) : Growing :=
  match g.segment.duration with
  | .flex minMs _ grow => if g.frozen then g else { g with dur := minMs + spare * grow / weight }
  | .fixed _ => g

/-- Share the spare time; every round but the last freezes a segment. -/
def growFlex : (fuel : ℕ) → List Growing → ℚ → List Growing
  | 0, gs, _ => gs
  | fuel + 1, gs, spare =>
    let weight := (gs.map Growing.weight).sum
    if weight ≤ 0 ∨ spare ≤ 0 then gs
    else
      let (frozen, left, froze) := freezeRound weight gs spare
      if froze then growFlex fuel frozen left else gs.map (Growing.share spare weight)

/-- Rounding half away from zero, of a length. -/
def roundHalfUp (q : ℚ) : ℕ := ⌊q + 1 / 2⌋.toNat

/-- The millisecond of the frame boundary nearest `ms`. -/
def snapToFrame (ms fps : ℚ) : ℕ := roundHalfUp (roundHalfUp (ms * fps / 1000) * 1000 / fps)

/-- Place the segments end to end, each boundary on a frame and the last at the gap's end. One
that snaps to nothing is left out. -/
def placeAll (gapMs : ℕ) (fps : ℚ) : List (Segment × ℚ × Bool) → ℚ → ℕ → List ResolvedSegment
  | [], _, _ => []
  | (segment, dur, filler) :: rest, cumulative, prev =>
    let cumulative := cumulative + dur
    let boundary := if rest.isEmpty then gapMs else min (snapToFrame cumulative fps) gapMs
    (if prev < boundary then [⟨segment, prev, boundary - prev, filler⟩] else []) ++
      placeAll gapMs fps rest cumulative boundary

def fillerSegment : Segment := ⟨FILLER_NAME, .black, .fixed 0, false, false, 0⟩

/-- Lengthen the last looping segment by `short`, or append the filler. -/
def coverShort (gs : List Growing) (short : ℚ) : List (Segment × ℚ × Bool) :=
  let plain := gs.map fun g => (g.segment, g.dur, false)
  if short < 1 / 2 then plain
  else
    match gs.reverse.findIdx? fun g => g.segment.loop with
    | some back => plain.modify (gs.length - 1 - back) fun e => (e.1, e.2.1 + short, e.2.2)
    | none => plain ++ [(fillerSegment, short, true)]

/-- The first segment whose range or share makes no sense. -/
def flexError (timeline : List Segment) : Option FitError :=
  timeline.findSome? fun s =>
    match s.duration with
    | .flex minMs maxMs grow =>
      if maxMs < minMs then some (.badFlex s.name minMs maxMs)
      else if grow < 0 then some (.badGrow s.name grow) else none
    | .fixed _ => none

def fitLengths (live : Live) (fits : Bool) (gapMs fixedMs : ℕ) : List Growing :=
  let start := live.map fun e => { segment := e.2, dur := e.2.needed : Growing }
  if fits then
    let flexMin := ((live.filter fun e => !e.2.isFixed).map fun e => e.2.needed).sum
    growFlex (live.length + 1) start ((gapMs - fixedMs : ℕ) - flexMin : ℚ)
  else
    start.map fun g => if g.segment.isFixed then g else { g with dur := (gapMs - fixedMs : ℕ) }

def fit (timeline : List Segment) (gapMs : ℕ) (fps : ℚ) : Except FitError (List ResolvedSegment) :=
  if timeline.isEmpty then .error .empty
  else if gapMs = 0 then .error .zeroGap
  else if fps ≤ 0 then .error (.badFps fps)
  else
    match flexError timeline with
    | some e => .error e
    | none =>
      let live := dropOptionals gapMs timeline.length (timeline.zipIdx.map Prod.swap)
      let fits := feasible live gapMs
      let live := if fits then live else keepFixed live
      let fixedMs := (live.map fun e => e.2.fixedMs).sum
      if gapMs < fixedMs then .error (.fixedExceedsGap fixedMs gapMs)
      else
        let gs := fitLengths live fits gapMs fixedMs
        .ok (placeAll gapMs fps (coverShort gs (gapMs - (gs.map Growing.dur).sum)) 0 0)

/-- Segments laid end to end from `s` to `f`, none of them empty. -/
def PlacedFrom : ℕ → ℕ → List ResolvedSegment → Prop
  | s, f, [] => s = f
  | s, f, a :: as => a.startMs = s ∧ 0 < a.durationMs ∧ PlacedFrom (s + a.durationMs) f as

theorem roundHalfUp_mono {p q : ℚ} (h : p ≤ q) : roundHalfUp p ≤ roundHalfUp q := by
  unfold roundHalfUp
  have hfloor : ⌊p + 1 / 2⌋ ≤ ⌊q + 1 / 2⌋ := Int.floor_mono (by linarith)
  omega

theorem snapToFrame_mono {p q fps : ℚ} (hfps : 0 < fps) (h : p ≤ q) :
    snapToFrame p fps ≤ snapToFrame q fps := by
  have hframes : roundHalfUp (p * fps / 1000) ≤ roundHalfUp (q * fps / 1000) :=
    roundHalfUp_mono (by gcongr)
  refine roundHalfUp_mono ?_
  have hcast : (roundHalfUp (p * fps / 1000) : ℚ) ≤ roundHalfUp (q * fps / 1000) := by
    exact_mod_cast hframes
  gcongr

/-- The placed segments fill the gap whatever their lengths. -/
theorem placeAll_placed {gapMs : ℕ} {fps : ℚ} (hfps : 0 < fps)
    {lengths : List (Segment × ℚ × Bool)} (hne : lengths ≠ []) (hpos : ∀ e ∈ lengths, 0 ≤ e.2.1)
    {cumulative : ℚ} {prev : ℕ} (hprev : prev ≤ gapMs)
    (hsnap : prev ≤ snapToFrame cumulative fps) :
    PlacedFrom prev gapMs (placeAll gapMs fps lengths cumulative prev) := by
  induction lengths generalizing cumulative prev with
  | nil => exact absurd rfl hne
  | cons e lengths ih =>
    obtain ⟨segment, dur, filler⟩ := e
    have hdur : 0 ≤ dur := hpos _ List.mem_cons_self
    have hgrown : snapToFrame cumulative fps ≤ snapToFrame (cumulative + dur) fps :=
      snapToFrame_mono hfps (by linarith)
    rw [placeAll]
    by_cases hlast : lengths.isEmpty
    · obtain rfl := List.isEmpty_iff.mp hlast
      simp only [List.isEmpty_nil, if_true, placeAll, List.append_nil]
      split_ifs with hroom
      · refine ⟨rfl, Nat.sub_pos_of_lt hroom, ?_⟩
        simp only [PlacedFrom]
        omega
      · simp only [PlacedFrom]
        omega
    · simp only [if_neg hlast]
      set boundary := min (snapToFrame (cumulative + dur) fps) gapMs with hboundary
      have hrest := ih (fun hnil => hlast (by rw [hnil]; rfl))
        (fun e he => hpos e (List.mem_cons_of_mem _ he)) (Nat.min_le_right _ _ : boundary ≤ gapMs)
        (Nat.min_le_left _ _)
      have hle : prev ≤ boundary := by omega
      split_ifs with hroom
      · refine ⟨rfl, Nat.sub_pos_of_lt hroom, ?_⟩
        rw [show prev + (boundary - prev) = boundary by omega]
        exact hrest
      · rw [show prev = boundary by omega]
        exact hrest

/-- A length given so far, and a share that makes sense. -/
structure Growing.Sound (g : Growing) : Prop where
  dur : 0 ≤ g.dur
  share : ∀ minMs maxMs grow, g.segment.duration = .flex minMs maxMs grow → 0 ≤ grow

theorem freezeRound_sound {weight : ℚ} {gs : List Growing} (h : ∀ g ∈ gs, g.Sound)
    (spare : ℚ) : ∀ g ∈ (freezeRound weight gs spare).1, g.Sound := by
  induction gs generalizing spare with
  | nil => simp [freezeRound]
  | cons g gs ih =>
    have hrest := ih fun g' hg' => h g' (List.mem_cons_of_mem _ hg')
    have hone := h g List.mem_cons_self
    rw [freezeRound]
    cases hdur : g.segment.duration with
    | fixed ms =>
      intro g' hg'
      rcases List.mem_cons.mp hg' with rfl | hg'
      · exact hone
      · exact hrest _ g' hg'
    | flex minMs maxMs grow =>
      dsimp only
      split_ifs
      · intro g' hg'
        rcases List.mem_cons.mp hg' with rfl | hg'
        · exact ⟨by positivity, hone.share⟩
        · exact hrest _ g' hg'
      · intro g' hg'
        rcases List.mem_cons.mp hg' with rfl | hg'
        · exact hone
        · exact hrest _ g' hg'

theorem Growing.Sound.shared {g : Growing} (h : g.Sound) {spare weight : ℚ} (hspare : 0 ≤ spare)
    (hweight : 0 ≤ weight) : (g.share spare weight).Sound := by
  unfold Growing.share
  cases hdur : g.segment.duration with
  | fixed ms => exact h
  | flex minMs maxMs grow =>
    dsimp only
    split_ifs
    · exact h
    · have hgrow := h.share _ _ _ hdur
      exact ⟨by positivity, h.share⟩

theorem growFlex_sound (fuel : ℕ) {gs : List Growing} (h : ∀ g ∈ gs, g.Sound) (spare : ℚ) :
    ∀ g ∈ growFlex fuel gs spare, g.Sound := by
  induction fuel generalizing gs spare with
  | zero => exact h
  | succ fuel ih =>
    rw [growFlex]
    dsimp only
    split_ifs with hstop hover
    · exact h
    · exact ih (freezeRound_sound h spare) _
    · push Not at hstop
      intro g hg
      obtain ⟨g', hg', rfl⟩ := List.mem_map.mp hg
      exact (h g' hg').shared hstop.2.le hstop.1.le

theorem fitLengths_sound {live : Live} (h : ∀ e ∈ live, ∀ minMs maxMs grow,
    e.2.duration = .flex minMs maxMs grow → 0 ≤ grow) (fits : Bool) (gapMs fixedMs : ℕ) :
    ∀ g ∈ fitLengths live fits gapMs fixedMs, g.Sound := by
  have hstart : ∀ g ∈ live.map (fun e => { segment := e.2, dur := e.2.needed : Growing }),
      g.Sound := by
    intro g hg
    obtain ⟨e, he, rfl⟩ := List.mem_map.mp hg
    exact ⟨Nat.cast_nonneg _, h e he⟩
  unfold fitLengths
  dsimp only
  split_ifs
  · exact growFlex_sound _ hstart _
  · intro g hg
    obtain ⟨g', hg', rfl⟩ := List.mem_map.mp hg
    split_ifs
    · exact hstart g' hg'
    · exact ⟨Nat.cast_nonneg _, (hstart g' hg').share⟩

theorem coverShort_nonneg {gs : List Growing} (h : ∀ g ∈ gs, g.Sound) (short : ℚ) :
    ∀ e ∈ coverShort gs short, 0 ≤ e.2.1 := by
  have hplain : ∀ e ∈ gs.map (fun g => (g.segment, g.dur, false)), 0 ≤ e.2.1 := by
    intro e he
    obtain ⟨g, hg, rfl⟩ := List.mem_map.mp he
    exact (h g hg).dur
  unfold coverShort
  dsimp only
  split_ifs with hshort
  · exact hplain
  · push Not at hshort
    have hpos : 0 ≤ short := by linarith
    split
    · intro e he
      rw [List.mem_iff_getElem?] at he
      obtain ⟨i, hi⟩ := he
      rw [List.getElem?_modify] at hi
      obtain ⟨e', he', rfl⟩ := Option.map_eq_some_iff.mp hi
      have := hplain e' (List.mem_of_getElem? he')
      split_ifs
      · exact add_nonneg this hpos
      · exact this
    · intro e he
      rcases List.mem_append.mp he with he | he
      · exact hplain e he
      · obtain rfl := List.mem_singleton.mp he
        exact hpos

theorem coverShort_ne_nil {gs : List Growing} {short : ℚ} (h : gs = [] → 1 / 2 ≤ short) :
    coverShort gs short ≠ [] := by
  unfold coverShort
  dsimp only
  split_ifs with hshort
  · intro hnil
    have := h (List.map_eq_nil_iff.mp hnil)
    linarith
  · split
    · rename_i back hback
      intro hnil
      have hlen := congrArg List.length hnil
      simp only [List.length_modify, List.length_map, List.length_nil] at hlen
      obtain rfl := List.length_eq_zero_iff.mp hlen
      simp at hback
    · simp

theorem mem_dropOptionals {gap fuel : ℕ} {live : Live} {e : ℕ × Segment}
    (h : e ∈ dropOptionals gap fuel live) : e ∈ live := by
  induction fuel generalizing live with
  | zero => exact h
  | succ fuel ih =>
    rw [dropOptionals] at h
    split_ifs at h
    · exact h
    · cases hv : victim live with
      | none =>
        rw [hv] at h
        exact h
      | some v =>
        rw [hv] at h
        exact (List.mem_filter.mp (ih h)).1

/-- A timeline that fits fills its gap from end to end. -/
theorem fit_placed {timeline : List Segment} {gapMs : ℕ} {fps : ℚ}
    {segments : List ResolvedSegment} (h : fit timeline gapMs fps = .ok segments) :
    0 < gapMs ∧ PlacedFrom 0 gapMs segments := by
  unfold fit at h
  split_ifs at h with hempty hgap hfps
  cases hflex : flexError timeline with
  | some e =>
    rw [hflex] at h
    cases h
  | none =>
    rw [hflex] at h
    have hshare : ∀ s ∈ timeline, ∀ minMs maxMs grow,
        s.duration = .flex minMs maxMs grow → 0 ≤ grow := by
      intro s hs minMs maxMs grow hdur
      have hnone := List.findSome?_eq_none_iff.mp hflex s hs
      rw [hdur] at hnone
      dsimp only at hnone
      split_ifs at hnone with hrange hneg
      exact not_lt.mp hneg
    dsimp only at h
    set live := dropOptionals gapMs timeline.length (timeline.zipIdx.map Prod.swap) with hlive
    have hmem : ∀ e ∈ live, e.2 ∈ timeline := by
      intro e he
      obtain ⟨p, hp, rfl⟩ := List.mem_map.mp (mem_dropOptionals he)
      exact List.fst_mem_of_mem_zipIdx hp
    set kept := if feasible live gapMs then live else keepFixed live with hkept
    have hkeptmem : ∀ e ∈ kept, e.2 ∈ timeline := by
      intro e he
      rw [hkept] at he
      split_ifs at he
      · exact hmem e he
      · exact hmem e (List.mem_filter.mp he).1
    split_ifs at h with hfixed
    obtain rfl := Except.ok.inj h
    have hsound := fitLengths_sound (fun e he => hshare e.2 (hkeptmem e he))
      (feasible live gapMs) gapMs (kept.map fun e => e.2.fixedMs).sum
    have hone : (1 : ℚ) ≤ gapMs := by exact_mod_cast Nat.one_le_iff_ne_zero.mpr hgap
    refine ⟨Nat.pos_of_ne_zero hgap, placeAll_placed (not_le.mp hfps) (coverShort_ne_nil ?_)
      (coverShort_nonneg hsound _) (Nat.zero_le _) (Nat.zero_le _)⟩
    intro hnil
    rw [hnil]
    simp only [List.map_nil, List.sum_nil, sub_zero]
    linarith

end EtvStation.Bumper
