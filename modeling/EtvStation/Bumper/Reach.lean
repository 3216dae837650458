import EtvStation.Bumper.Exact
import EtvStation.Bumper.Fill

/-! Whether a timeline can come to the end of its gap without black, foretold and fitted. -/
namespace EtvStation.Bumper

/-- As long as a segment gets when there is spare time: one with no share of it stays at its
shortest. -/
def Segment.reachMs (s : Segment) : ℕ :=
  match s.duration with
  | .fixed ms => ms
  | .flex minMs maxMs grow => if 0 < grow then maxMs else minMs

def reachOf (live : Live) : ℕ := (live.map fun e => e.2.reachMs).sum

/-- What stays comes to the end of the gap: it loops, is long enough, or ends on the gap's own
frame. -/
def Covers (live : Live) (gapMs : ℕ) (fps : ℚ) : Prop :=
  (∃ e ∈ live, e.2.loop = true) ∨ gapMs ≤ reachOf live ∨ gapMs ≤ snapToFrame (reachOf live) fps

theorem Growing.FilledTo.dur_le {level : ℚ} {g : Growing} (h : g.FilledTo level)
    (hvalid : g.segment.ValidFlex) : g.dur ≤ g.segment.reachMs ∧
      (g.Full → g.dur = g.segment.reachMs) := by
  unfold Growing.FilledTo at h
  unfold Segment.reachMs Growing.Full
  cases hdur : g.segment.duration with
  | fixed ms =>
    rw [hdur] at h
    exact ⟨le_of_eq h, fun _ => h⟩
  | flex minMs maxMs grow =>
    rw [hdur] at h
    obtain ⟨hrange, hgrow⟩ := hvalid _ _ _ hdur
    have hle : (minMs : ℚ) ≤ maxMs := by exact_mod_cast hrange
    dsimp only at h ⊢
    split_ifs with hpos
    · exact ⟨h.trans_le (min_le_left _ _), fun hfull => hfull _ _ _ rfl hpos⟩
    · have hzero : grow = 0 := le_antisymm (not_lt.mp hpos) hgrow
      rw [hzero, mul_zero, add_zero, min_eq_right hle] at h
      exact ⟨h.le, fun _ => h⟩

/-- Filled lengths come to no more than the reach, and to all of it where every segment is full. -/
theorem totalDur_reach {level : ℚ} {gs : List Growing} (hfilled : ∀ g ∈ gs, g.FilledTo level)
    (hvalid : ∀ g ∈ gs, g.segment.ValidFlex) :
    totalDur gs ≤ ((gs.map fun g => g.segment.reachMs).sum : ℕ) ∧
      ((∀ g ∈ gs, g.Full) → totalDur gs = ((gs.map fun g => g.segment.reachMs).sum : ℕ)) := by
  induction gs with
  | nil => simp [totalDur]
  | cons g gs ih =>
    obtain ⟨hle, heq⟩ := (hfilled g List.mem_cons_self).dur_le (hvalid g List.mem_cons_self)
    obtain ⟨hrest, hrestEq⟩ := ih (fun g' hg' => hfilled g' (List.mem_cons_of_mem _ hg'))
      fun g' hg' => hvalid g' (List.mem_cons_of_mem _ hg')
    rw [totalDur_cons, List.map_cons, List.sum_cons, Nat.cast_add]
    refine ⟨add_le_add hle hrest, fun hfull => ?_⟩
    rw [heq (hfull g List.mem_cons_self),
      hrestEq fun g' hg' => hfull g' (List.mem_cons_of_mem _ hg')]

/-- Shared out in full, the lengths come to the gap or to the reach, whichever is less. -/
theorem WaterFilled.total {gs : List Growing} {gapMs : ℕ} (h : WaterFilled gs gapMs)
    (hvalid : ∀ g ∈ gs, g.segment.ValidFlex) :
    totalDur gs = (min gapMs (gs.map fun g => g.segment.reachMs).sum : ℕ) := by
  obtain ⟨level, -, hfilled⟩ := h.level
  obtain ⟨hle, heq⟩ := totalDur_reach hfilled hvalid
  have hgap := h.le
  rcases h.used with hused | hfull
  · rw [hused] at hle ⊢
    have : gapMs ≤ (gs.map fun g => g.segment.reachMs).sum := by exact_mod_cast hle
    rw [min_eq_left this]
  · rw [heq hfull] at hgap ⊢
    have : (gs.map fun g => g.segment.reachMs).sum ≤ gapMs := by exact_mod_cast hgap
    rw [min_eq_right this]

section Kept

variable {timeline : List Segment} (gapMs : ℕ)

end Kept

end EtvStation.Bumper
