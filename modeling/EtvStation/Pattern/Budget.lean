import EtvStation.Pattern.Stops

/-! A budgeted walk opens nothing once the budget is laid: each id comes from a visit, or from a
cycle where the block stops only between cycles, that opened while the walk had laid less. -/
namespace EtvStation

namespace Walk

variable {w : Walk}

/-- The visits at some positions one after another, whatever has been laid. -/
def visitEach (w : Walk) : List (ℕ × ℕ) → WalkState → Except String WalkState
  | [], s => .ok s
  | (cycle, step) :: ps, s => do
    let s ← w.visitAt cycle step s
    w.visitEach ps s

theorem visitEach_append {ps qs : List (ℕ × ℕ)} {s s₁ s₂ : WalkState}
    (h : w.visitEach ps s = .ok s₁) (h' : w.visitEach qs s₁ = .ok s₂) :
    w.visitEach (ps ++ qs) s = .ok s₂ := by
  induction ps generalizing s with
  | nil =>
    obtain rfl := Except.ok.inj h
    exact h'
  | cons p ps ih =>
    obtain ⟨s', hvisit, h⟩ := Lib.bind_eq_ok.mp h
    exact Lib.bind_eq_ok.mpr ⟨s', hvisit, ih h⟩

/-- What the walk lays without asking the budget: a visit, or the visits of one cycle where the
block stops only between cycles. Opened at `a`, it leads to `b`. -/
structure Stretch (w : Walk) (fill : ℕ) (a b : WalkState) : Prop where
  opened : a.laid < fill
  visits : ∃ pos rest, w.visitEach (pos :: rest) a = .ok b ∧
    if w.stopAtVisit then rest = [] else pos.2 = 0 ∧ ∀ q ∈ rest, q.2 ≠ 0

/-- The walk from `s` has come to draw the ids from `k` on in one stretch. -/
def DrawnIn (w : Walk) (fill : ℕ) (s : WalkState) (ids : List EntryId) (k : ℕ) : Prop :=
  ∃ ps a b, w.visitEach ps s = .ok a ∧ w.Stretch fill a b ∧ a.out.length ≤ k ∧ k < b.out.length ∧
    b.out <+: ids

theorem Recorded.out_extends {s s' : WalkState} {Q : ℕ × ℕ → Prop} (h : w.Recorded s s' Q) :
    s.out <+: s'.out := by
  obtain ⟨-, out, -, hout, -⟩ := h
  exact ⟨out, hout.symm⟩

/-- A walk entered at the start of a stretch, or inside one, draws every id in a stretch that opened
within the budget. -/
theorem run_drawnIn {fill : ℕ} {end_ stop : ℕ × ℕ} {ps before : List (ℕ × ℕ)}
    {s₀ s s' : WalkState} (hs : w.Serves s.runtimes) (hbefore : w.visitEach before s₀ = .ok s)
    (hinside : (∀ p, ps.head? = some p → w.stopAtVisit = true ∨ p.2 = 0) ∨
      ∃ past a, w.visitEach past s₀ = .ok a ∧ w.Stretch fill a s ∧ a.out <+: s.out ∧
        w.stopAtVisit = false)
    (h : w.run (some fill) end_ ps s = .ok (s', stop)) {k : ℕ} (hk : s.out.length ≤ k)
    (hk' : k < s'.out.length) : w.DrawnIn fill s₀ s'.out k := by
  induction ps generalizing s before with
  | nil =>
    obtain ⟨rfl, -⟩ := Prod.mk.inj (Except.ok.inj h)
    omega
  | cons pos ps ih =>
    obtain ⟨cycle, step⟩ := pos
    rw [run] at h
    split_ifs at h with hover
    · obtain ⟨rfl, -⟩ := Prod.mk.inj (Except.ok.inj h)
      omega
    obtain ⟨s₁, hvisit, h⟩ := Lib.bind_eq_ok.mp h
    have hrecorded := visitAt_recorded hs hvisit
    obtain ⟨_, _, -, -, hrest⟩ := run_recorded hrecorded.serves h
    have hone : w.visitEach [(cycle, step)] s = .ok s₁ := Lib.bind_eq_ok.mpr ⟨s₁, hvisit, rfl⟩
    -- The stretch this visit belongs to, opened here where the walk asks the budget.
    have hunit : ∃ past a, w.visitEach past s₀ = .ok a ∧ w.Stretch fill a s₁ ∧ a.out <+: s.out := by
      by_cases hask : w.stopAtVisit = true ∨ step = 0
      · have hlaid : s.laid < fill := by
          unfold isOver at hover
          rcases hask with hask | hask <;> simpa [hask] using hover
        refine ⟨before, s, hbefore, ⟨hlaid, (cycle, step), [], hone, ?_⟩, List.prefix_rfl⟩
        split_ifs with hstop
        · rfl
        · exact ⟨hask.resolve_left hstop, fun q hq => absurd hq List.not_mem_nil⟩
      · rcases hinside with hhead | ⟨past, a, hpast, hunit, hout, hstop⟩
        · exact absurd (hhead _ rfl) hask
        · obtain ⟨pos, rest, hvisits, hshape⟩ := hunit.visits
          rw [if_neg (by simp [hstop])] at hshape
          refine ⟨past, a, hpast, ⟨hunit.opened, pos, rest ++ [(cycle, step)], ?_, ?_⟩, hout⟩
          · exact visitEach_append hvisits hone
          · rw [if_neg (by simp [hstop])]
            refine ⟨hshape.1, fun q hq => ?_⟩
            rcases List.mem_append.mp hq with hq | hq
            · exact hshape.2 q hq
            · rw [List.mem_singleton.mp hq]
              exact fun hzero => hask (Or.inr hzero)
    obtain ⟨past, a, hpast, hunit, hout⟩ := hunit
    by_cases hk₁ : k < s₁.out.length
    · exact ⟨past, a, s₁, hpast, hunit, hout.length_le.trans hk, hk₁, hrest.out_extends⟩
    · refine ih hrecorded.serves (visitEach_append hbefore hone) ?_ h (not_lt.mp hk₁)
      by_cases hstop : w.stopAtVisit = true
      · exact Or.inl fun _ _ => Or.inl hstop
      · exact Or.inr ⟨past, a, hpast, hunit, hout.trans hrecorded.out_extends, by simpa using hstop⟩

/-- A walk opens at the start of a stretch: only a block that stops at any visit resumes inside a
cycle. -/
theorem positions_head {p : ℕ × ℕ} {cycles : ℕ} (hfirst : w.stopAtVisit = true ∨ w.firstStep = 0)
    (h : (w.positions cycles).head? = some p) : w.stopAtVisit = true ∨ p.2 = 0 := by
  rcases hfirst with hstop | hfirst
  · exact Or.inl hstop
  right
  unfold positions at h
  cases cycles with
  | zero => cases h
  | succ cycles =>
    cases hlen : w.block.pattern.length with
    | zero =>
      simp only [hlen, List.range_zero, List.drop_nil, List.map_nil] at h
      rw [List.flatMap_eq_nil_iff.mpr fun _ _ => rfl] at h
      cases h
    | succ n =>
      rw [List.range_succ_eq_map, List.flatMap_cons, hlen, hfirst] at h
      simp only [if_true, List.drop_zero, List.range_succ_eq_map, List.map_cons,
        List.cons_append, List.head?_cons, Option.some.injEq] at h
      rw [← h]

end Walk

/-- Each id a budgeted pattern block draws comes from a stretch that opened within the budget. -/
theorem Station.build_drawnIn {st : Station} {block : Block} {state : GenerationState}
    {windowStart : ℤ} {fill : ℕ} {rule : Option ChannelRule} {b : BlockBuild}
    (hcycles : block.cycles = none)
    (h : st.build block state windowStart (some fill) rule = .ok b) :
    ∃ s, st.openWalk block (st.walk block state windowStart (some fill)) rule = .ok s ∧
      ∀ k < b.ids.length,
        (st.walk block state windowStart (some fill)).DrawnIn fill s b.ids k := by
  obtain ⟨s, hopen, h⟩ := Lib.bind_eq_ok.mp h
  obtain ⟨cycles, -, h⟩ := Lib.bind_eq_ok.mp h
  obtain ⟨⟨s', stop⟩, hrun, h⟩ := Lib.bind_eq_ok.mp h
  obtain rfl := Except.ok.inj h
  refine ⟨s, hopen, fun k hk => ?_⟩
  obtain ⟨hserves, hnone, -⟩ := Station.openWalk_serves hopen
  have hbudget : block.budget (some fill) = some fill := by
    unfold Block.budget
    rw [hcycles]
    rfl
  rw [hbudget] at hrun
  have hfirst : (st.walk block state windowStart (some fill)).stopAtVisit = true ∨
      (st.walk block state windowStart (some fill)).firstStep = 0 := by
    by_cases hall : (block.pools.all fun p => p.advance = .resume) = true
    · exact Or.inl hall
    · exact Or.inr (if_neg hall)
  have hfresh : s.out.length ≤ k := by
    rw [hnone]
    exact Nat.zero_le k
  have hstart : (st.walk block state windowStart (some fill)).visitEach [] s = .ok s := rfl
  exact Walk.run_drawnIn hserves hstart
    (Or.inl fun p hp => Walk.positions_head hfirst hp) hrun hfresh hk

end EtvStation
