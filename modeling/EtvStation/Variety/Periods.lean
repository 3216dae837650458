import EtvStation.Lib.Periods
import EtvStation.Pattern.Pool
import EtvStation.Variety.Dice

/-! The periods a `rotate: <span>` pool holds a series for. The lines between them stand on the
local clock; each instant resolves the two around it through its own offset. -/
namespace EtvStation

namespace Zone

variable (z : Zone)

/-- `t` is in the period named for it, all of that period's instants name it, the next one starts
where it ends, and a hold made in it stands for just as long. -/
structure SpanHolds (span : ℕ) (t : ℤ) : Prop where
  start_le : (z.spanPeriod t span).1 ≤ t
  lt_stop : t < (z.spanPeriod t span).2
  same : ∀ u, (z.spanPeriod t span).1 ≤ u → u < (z.spanPeriod t span).2 →
    z.spanPeriod u span = z.spanPeriod t span
  follows : (z.spanPeriod (z.spanPeriod t span).2 span).1 = (z.spanPeriod t span).2
  held : ∀ (rt : PoolRuntime) (hold : Hold), hold.periodStart = (z.spanPeriod t span).1 → ∀ u,
    rt.heldSeries hold (z.spanPeriod u span).1 =
      if (z.spanPeriod t span).1 ≤ u ∧ u < (z.spanPeriod t span).2 then
        rt.heldSeries hold hold.periodStart
      else none

/-- The lines around the clock before a change and after it resolve to the same two instants. -/
def LinesStay (span : ℕ) (t : ℤ) : Prop :=
  let before := spanLine span (z.localSecs t)
  let after := spanLine span (z.localSecs (t + 1))
  z.localToUtc after (t + 1) = z.localToUtc before t ∧
    z.localToUtc (after + (max span 1 : ℕ)) (t + 1) = z.localToUtc (before + (max span 1 : ℕ)) t

/-- The line ahead of the clock before a change, and the one behind it after, resolve to the
instant of the change. -/
def LinesJoin (span : ℕ) (t : ℤ) : Prop :=
  z.localToUtc (spanLine span (z.localSecs t) + (max span 1 : ℕ)) t = t + 1 ∧
    z.localToUtc (spanLine span (z.localSecs (t + 1))) (t + 1) = t + 1

/-- No change of the offset tears the lines of a span apart. -/
def KeepsPeriods (span : ℕ) : Prop :=
  ∀ t, z.offset (t + 1) ≠ z.offset t → z.LinesStay span t ∨ z.LinesJoin span t

theorem spanLine_bounds (span : ℕ) (clock : ℤ) :
    spanLine span clock ≤ clock ∧ clock < spanLine span clock + (max span 1 : ℕ) := by
  have hpos : (0 : ℤ) < (max span 1 : ℕ) := by omega
  have hlow := Int.ediv_mul_le (clock - spanAnchor (max span 1 : ℕ)) hpos.ne'
  have hhigh := Int.lt_ediv_add_one_mul_self (clock - spanAnchor (max span 1 : ℕ)) hpos
  unfold spanLine
  dsimp only
  rw [add_mul, one_mul] at hhigh
  constructor <;> omega

theorem localToUtc_bounds (line near : ℤ) : (line - 86400) * SECOND < z.localToUtc line near ∧
    z.localToUtc line near < (line + 86400) * SECOND := by
  have hbounds := z.offset_bounds ((line - z.offset near) * SECOND)
  simp only [localToUtc]
  generalize z.offset ((line - z.offset near) * SECOND) = o at hbounds
  simp only [SECOND]
  omega

/-- The lines of a span are the numbers a whole number of spans from its anchor. -/
def IsSpanLine (span : ℕ) (line : ℤ) : Prop :=
  ∃ k : ℤ, line = spanAnchor (max span 1 : ℕ) + k * (max span 1 : ℕ)

theorem isSpanLine_spanLine (span : ℕ) (clock : ℤ) : IsSpanLine span (spanLine span clock) :=
  ⟨_, rfl⟩

theorem IsSpanLine.next {span : ℕ} {line : ℤ} (h : IsSpanLine span line) :
    IsSpanLine span (line + (max span 1 : ℕ)) := by
  obtain ⟨k, rfl⟩ := h
  exact ⟨k + 1, by ring⟩

/-- A clock that has passed one line and not the next is on the former. -/
theorem IsSpanLine.eq {span : ℕ} {line : ℤ} (h : IsSpanLine span line) (clock : ℤ) (hle : line ≤ clock)
    (hlt : clock < line + (max span 1 : ℕ)) : spanLine span clock = line := by
  obtain ⟨k, rfl⟩ := h
  have hpos : (0 : ℤ) < (max span 1 : ℕ) := by omega
  have hdiv : (clock - spanAnchor (max span 1 : ℕ)) / (max span 1 : ℕ) = k := by
    rw [Int.ediv_eq_iff_of_pos hpos]
    constructor
    · omega
    · omega
  unfold spanLine
  dsimp only
  rw [hdiv]

/-- While the offset stays, the clock runs on, and a line it reaches resolves to that instant. -/
theorem spanSteps_of_same {span : ℕ} {t : ℤ} (h : z.offset (t + 1) = z.offset t) :
    Lib.PeriodSteps (z.spanPeriod · span) t := by
  obtain ⟨hlow, hhigh⟩ := spanLine_bounds span (z.localSecs t)
  have hline := isSpanLine_spanLine span (z.localSecs t)
  have hsame : ∀ line, z.localToUtc line (t + 1) = z.localToUtc line t := by
    intro line
    simp only [localToUtc, h]
  by_cases hin : z.localSecs (t + 1) < spanLine span (z.localSecs t) + (max span 1 : ℕ)
  · left
    have hclock : z.localSecs t ≤ z.localSecs (t + 1) := by
      simp only [localSecs, h, SECOND]
      omega
    simp only [spanPeriod, hline.eq _ (hlow.trans hclock) hin, hsame]
  · right
    have htick : z.localSecs (t + 1) = spanLine span (z.localSecs t) + (max span 1 : ℕ) ∧
        (t + 1) % SECOND = 0 := by
      simp only [localSecs, h, SECOND] at hin hhigh ⊢
      omega
    have hreached : z.localToUtc (spanLine span (z.localSecs t) + (max span 1 : ℕ)) t = t + 1 := by
      rw [← htick.1]
      simp only [localToUtc, localSecs, h, add_sub_cancel_right]
      have hsecond : (t + 1) / SECOND * SECOND = t + 1 := by
        have := Int.ediv_mul_cancel_of_emod_eq_zero htick.2
        exact this
      rw [hsecond, h, add_sub_cancel_right, hsecond]
    have hnext := hline.next.eq _ htick.1.ge (by omega)
    refine ⟨hreached, ?_⟩
    simp only [spanPeriod, hnext, hsame]
    exact hreached

theorem spanSteps_iff {span : ℕ} {t : ℤ} : Lib.PeriodSteps (z.spanPeriod · span) t ↔
    z.LinesStay span t ∨ z.LinesJoin span t := by
  simp only [Lib.PeriodSteps, spanPeriod, LinesStay, LinesJoin, Prod.mk.injEq]

theorem spanHolds_iff {span : ℕ} : (∀ t, z.SpanHolds span t) ↔
    ∀ t, Lib.PeriodHolds (z.spanPeriod · span) t := by
  constructor
  · intro h t
    exact ⟨(h t).start_le, (h t).lt_stop, (h t).same, (h t).follows⟩
  · intro h t
    refine ⟨(h t).start_le, (h t).lt_stop, (h t).same, (h t).follows, ?_⟩
    intro rt hold hstart u
    have hsame := Lib.start_eq_iff h t u
    by_cases hin : (z.spanPeriod u span).1 = (z.spanPeriod t span).1
    · rw [if_pos (hsame.mp hin), hin, hstart]
    · rw [if_neg fun hheld => hin (hsame.mpr hheld)]
      unfold PoolRuntime.heldSeries
      split
      · rw [hstart, if_neg]
        simpa using fun heq => absurd heq.symm hin
      · rfl

/-- The periods of a span tile time, whatever the zone, exactly when none of its changes tears
their lines apart. -/
theorem spanHolds_iff_keepsPeriods (span : ℕ) :
    (∀ t, z.SpanHolds span t) ↔ z.KeepsPeriods span := by
  rw [spanHolds_iff, Lib.periodHolds_iff (3 * 86400 * 1000000000)]
  · constructor
    · intro h t _
      exact z.spanSteps_iff.mp (h t)
    · intro h t
      by_cases hsame : z.offset (t + 1) = z.offset t
      · exact z.spanSteps_of_same hsame
      · exact z.spanSteps_iff.mpr (h t hsame)
  · intro t
    obtain ⟨-, hhigh⟩ := spanLine_bounds span (z.localSecs t)
    have hfar := (z.localToUtc_bounds (spanLine span (z.localSecs t) + (max span 1 : ℕ)) t).1
    have hoffset := (z.offset_bounds t).1
    change t - _ < z.localToUtc (spanLine span (z.localSecs t) + (max span 1 : ℕ)) t
    simp only [localSecs, SECOND] at hhigh hfar ⊢
    omega
  · intro t
    obtain ⟨hlow, -⟩ := spanLine_bounds span (z.localSecs t)
    have hfar := (z.localToUtc_bounds (spanLine span (z.localSecs t)) t).2
    have hoffset := (z.offset_bounds t).2
    change z.localToUtc (spanLine span (z.localSecs t)) t < t + _
    simp only [localSecs, SECOND] at hlow hfar ⊢
    omega

/-- The changes of a zone come on whole seconds, and no other is within a span of one. -/
def ChangesApart (span : ℕ) : Prop :=
  ∀ t, z.offset (t + 1) ≠ z.offset t → ∃ s : ℤ, t + 1 = s * SECOND ∧ ∀ d : ℤ,
    (s - (max span 1 : ℕ) ≤ d → d < s → z.offset (d * SECOND) = z.offset t) ∧
    (s ≤ d → d ≤ s + (max span 1 : ℕ) → z.offset (d * SECOND) = z.offset (t + 1))

/-- A line that a change skips, or that the clock reads a second time after it. -/
def OnLine (span : ℕ) (t : ℤ) : Prop :=
  ∃ line, IsSpanLine span line ∧
    min (z.offset t) (z.offset (t + 1)) ≤ line - (t + 1) / SECOND ∧
    line - (t + 1) / SECOND < max (z.offset t) (z.offset (t + 1))

theorem localToUtc_of (line near : ℤ) {guess o : ℤ} (hguess : line - z.offset near = guess)
    (ho : z.offset (guess * SECOND) = o) : z.localToUtc line near = (line - o) * SECOND := by
  simp only [localToUtc, hguess, ho]

theorem IsSpanLine.eq_spanLine {span : ℕ} {line : ℤ} (h : IsSpanLine span line) (clock : ℤ)
    (hle : spanLine span clock ≤ line) (hlt : line < spanLine span clock + (max span 1 : ℕ)) :
    line = spanLine span clock := by
  have hself := h.eq line le_rfl (by omega)
  have hother := (isSpanLine_spanLine span clock).eq line hle hlt
  exact hself.symm.trans hother

/-- In a zone whose changes are apart, the lines torn apart are those skipped or repeated. -/
theorem keepsPeriods_iff_of_apart {span : ℕ} (h : z.ChangesApart span) : z.KeepsPeriods span ↔
    ∀ t, z.offset (t + 1) ≠ z.offset t → ¬ z.OnLine span t := by
  refine forall_congr' fun t => imp_congr_right fun hne => ?_
  obtain ⟨s, hs, hnear⟩ := h t hne
  have hS : SECOND ≠ 0 := by decide
  have hdiv : t / SECOND = s - 1 ∧ (t + 1) / SECOND = s := by
    simp only [SECOND] at hs ⊢
    omega
  have hclock : z.localSecs t = s - 1 + z.offset t := by rw [localSecs, hdiv.1]
  have hclock' : z.localSecs (t + 1) = s + z.offset (t + 1) := by rw [localSecs, hdiv.2]
  obtain ⟨hlow, hhigh⟩ := spanLine_bounds span (s - 1 + z.offset t)
  obtain ⟨hlow', hhigh'⟩ := spanLine_bounds span (s + z.offset (t + 1))
  have hline := isSpanLine_spanLine span (s - 1 + z.offset t)
  have hline' := isSpanLine_spanLine span (s + z.offset (t + 1))
  have hbefore := z.localToUtc_of (spanLine span (s - 1 + z.offset t)) t rfl
    ((hnear _).1 (by omega) (by omega))
  have hahead := z.localToUtc_of (spanLine span (s - 1 + z.offset t) + (max span 1 : ℕ)) t rfl
    ((hnear _).2 (by omega) (by omega))
  have hahead' := z.localToUtc_of
    (spanLine span (s + z.offset (t + 1)) + (max span 1 : ℕ)) (t + 1) rfl
    ((hnear _).2 (by omega) (by omega))
  have hbehind : z.localToUtc (spanLine span (s + z.offset (t + 1))) (t + 1) =
      (spanLine span (s + z.offset (t + 1)) -
        if spanLine span (s + z.offset (t + 1)) = s + z.offset (t + 1) then z.offset (t + 1)
        else z.offset t) * SECOND := by
    refine z.localToUtc_of _ _ rfl ?_
    split_ifs with hon
    · exact (hnear _).2 (by omega) (by omega)
    · exact (hnear _).1 (by omega) (by omega)
  have hcancel : ∀ x y : ℤ, x * SECOND = y * SECOND ↔ x = y := fun x y => mul_left_inj' hS
  have hinstant : ∀ x : ℤ, x * SECOND = t + 1 ↔ x = s := by
    intro x
    rw [hs]
    exact hcancel x s
  have hstay : z.LinesStay span t ↔
      spanLine span (s + z.offset (t + 1)) = spanLine span (s - 1 + z.offset t) ∧
        spanLine span (s + z.offset (t + 1)) ≠ s + z.offset (t + 1) := by
    simp only [LinesStay, hclock, hclock', hbefore, hahead, hahead', hbehind, hcancel]
    constructor
    · rintro ⟨hstart, hstop⟩
      split_ifs at hstart with hon <;> omega
    · rintro ⟨hsame, hon⟩
      rw [if_neg hon]
      omega
  have hjoin : z.LinesJoin span t ↔
      spanLine span (s - 1 + z.offset t) + (max span 1 : ℕ) = s + z.offset (t + 1) := by
    simp only [LinesJoin, hclock, hclock', hahead, hbehind, hinstant]
    constructor
    · rintro ⟨hstop, -⟩
      omega
    · intro hstop
      have hon := hline.next.eq (s + z.offset (t + 1)) hstop.le (by omega)
      rw [if_pos (by omega)]
      omega
  rw [hstay, hjoin]
  constructor
  · rintro hkept ⟨line, hisline, hfrom, hto⟩
    rw [hdiv.2] at hfrom hto
    have hbelow := hisline.eq_spanLine (s - 1 + z.offset t)
    have hbelow' := hisline.eq_spanLine (s + z.offset (t + 1))
    omega
  · intro hclear
    have hnot : ∀ line, IsSpanLine span line →
        ¬ (min (z.offset t) (z.offset (t + 1)) ≤ line - s ∧
          line - s < max (z.offset t) (z.offset (t + 1))) := by
      rintro line hisline ⟨hfrom, hto⟩
      exact hclear ⟨line, hisline, by rwa [hdiv.2], by rwa [hdiv.2]⟩
    have hbehindClear := hnot _ hline
    have haheadClear := hnot _ hline.next
    by_cases hmeet : spanLine span (s - 1 + z.offset t) + (max span 1 : ℕ) = s + z.offset (t + 1)
    · exact Or.inr hmeet
    · left
      have hsame := hline.eq (s + z.offset (t + 1)) (by omega) (by omega)
      exact ⟨hsame, by omega⟩

end Zone

/-- At 02:00Z the clock of São Paulo reads 23:00, and the midnight that summer time skips resolves
back to that very instant: the day is taken to be over. -/
theorem saoPaulo_day_over :
    (saoPaulo.spanPeriod 1541296800000000000 86400).2 = 1541296800000000000 ∧
      ¬ ∀ (z : Zone) (span : ℕ) (t : ℤ), 0 < span → 86400 ∣ span → z.SpanHolds span t := by
  have hover : (saoPaulo.spanPeriod 1541296800000000000 86400).2 = 1541296800000000000 := by decide
  refine ⟨hover, fun hall => ?_⟩
  have hlt := (hall saoPaulo 86400 1541296800000000000 (by decide) (by decide)).lt_stop
  omega

end EtvStation
