import EtvStation.Bumper.Timeline

/-! How the spare time of a gap is shared. Round after round the level of the water rises: a
segment frozen at its longest is below it from then on, and the rest still start at their
shortest. -/
namespace EtvStation.Bumper

/-- A segment as a round leaves it, with the water no lower than `level`. -/
def Growing.At (level : ℚ) (g : Growing) : Prop :=
  match g.segment.duration with
  | .fixed ms => g.dur = ms
  | .flex minMs maxMs grow => minMs ≤ maxMs ∧ 0 ≤ grow ∧
      if g.frozen then g.dur = maxMs ∧ (maxMs : ℚ) - minMs ≤ level * grow else g.dur = minMs

/-- A segment filled to `level`: its share of it past the shortest, up to the longest. -/
def Growing.FilledTo (level : ℚ) (g : Growing) : Prop :=
  match g.segment.duration with
  | .fixed ms => g.dur = ms
  | .flex minMs maxMs grow => g.dur = min (maxMs : ℚ) (minMs + level * grow)

/-- A segment that grows and is at its longest, or does not grow. -/
def Growing.Full (g : Growing) : Prop :=
  ∀ minMs maxMs grow, g.segment.duration = .flex minMs maxMs grow → 0 < grow → g.dur = maxMs

def Growing.open_ (g : Growing) : Bool := !g.segment.isFixed && !g.frozen

def totalDur (gs : List Growing) : ℚ := (gs.map Growing.dur).sum

def totalWeight (gs : List Growing) : ℚ := (gs.map Growing.weight).sum

@[simp] theorem totalDur_cons (g : Growing) (gs : List Growing) :
    totalDur (g :: gs) = g.dur + totalDur gs := by
  simp [totalDur]

@[simp] theorem totalWeight_cons (g : Growing) (gs : List Growing) :
    totalWeight (g :: gs) = g.weight + totalWeight gs := by
  simp [totalWeight]

theorem Growing.At.weight_nonneg {level : ℚ} {g : Growing} (h : g.At level) : 0 ≤ g.weight := by
  unfold Growing.weight
  unfold Growing.At at h
  cases hdur : g.segment.duration with
  | fixed ms => exact le_rfl
  | flex minMs maxMs grow =>
    rw [hdur] at h
    dsimp only
    split_ifs
    · exact le_rfl
    · exact h.2.1

theorem totalWeight_nonneg {level : ℚ} {gs : List Growing} (h : ∀ g ∈ gs, g.At level) :
    0 ≤ totalWeight gs := by
  induction gs with
  | nil => exact le_rfl
  | cons g gs ih =>
    have hone := (h g List.mem_cons_self).weight_nonneg
    have hrest := ih fun g' hg' => h g' (List.mem_cons_of_mem _ hg')
    rw [totalWeight_cons]
    linarith

theorem Growing.At.mono {level level' : ℚ} {g : Growing} (h : g.At level) (hle : level ≤ level') :
    g.At level' := by
  unfold Growing.At at h ⊢
  cases hdur : g.segment.duration with
  | fixed ms =>
    rw [hdur] at h
    exact h
  | flex minMs maxMs grow =>
    rw [hdur] at h
    obtain ⟨hrange, hgrow, hat⟩ := h
    refine ⟨hrange, hgrow, ?_⟩
    split_ifs at hat ⊢
    · have := mul_le_mul_of_nonneg_right hle hgrow
      exact ⟨hat.1, by linarith⟩
    · exact hat

/-- A segment that a round may freeze becomes one at its longest, below the level. -/
structure Round (weight level : ℚ) (gs : List Growing) (spare : ℚ) (out : List Growing × ℚ × Bool) :
    Prop where
  at_ : ∀ g ∈ out.1, g.At level
  segments : out.1.map Growing.segment = gs.map Growing.segment
  left : out.2.1 + totalDur out.1 = spare + totalDur gs
  less : out.2.1 ≤ spare
  /-- What is frozen takes no more than its weight at the level. -/
  below : spare - out.2.1 ≤ level * (totalWeight gs - totalWeight out.1)
  froze : out.2.2 = true → out.1.countP Growing.open_ < gs.countP Growing.open_
  still : out.2.2 = false → out.1 = gs ∧ out.2.1 = spare ∧ ∀ g ∈ gs, ∀ minMs maxMs grow,
    g.segment.duration = .flex minMs maxMs grow → g.frozen = false →
      minMs + spare * grow / weight ≤ maxMs
  count : out.1.countP Growing.open_ ≤ gs.countP Growing.open_

section
variable {weight level spare : ℚ} {g : Growing} {gs : List Growing}

/-- A segment that fits its share stays as it is. -/
theorem Round.keep {out : List Growing × ℚ × Bool} (hrest : Round weight level gs spare out)
    (hone : g.At level) (hfits : ∀ minMs maxMs grow, g.segment.duration = .flex minMs maxMs grow →
      g.frozen = false → minMs + spare * grow / weight ≤ maxMs) :
    Round weight level (g :: gs) spare (g :: out.1, out.2) := by
  constructor
  · exact List.forall_mem_cons.mpr ⟨hone, hrest.at_⟩
  · rw [List.map_cons, List.map_cons, hrest.segments]
  · have := hrest.left
    simp only [totalDur_cons]
    linarith
  · exact hrest.less
  · have := hrest.below
    simp only [totalWeight_cons]
    rwa [add_sub_add_left_eq_sub]
  · intro hfroze
    have := hrest.froze hfroze
    simp only [List.countP_cons]
    omega
  · intro hstill
    obtain ⟨hsame, hspare, hall⟩ := hrest.still hstill
    refine ⟨?_, hspare, List.forall_mem_cons.mpr ⟨hfits, hall⟩⟩
    dsimp only
    rw [hsame]
  · have := hrest.count
    simp only [List.countP_cons]
    omega

/-- An open segment that its share takes past its longest is frozen there. -/
theorem Round.freeze {minMs maxMs : ℕ} {grow : ℚ} {out : List Growing × ℚ × Bool}
    (hdur : g.segment.duration = .flex minMs maxMs grow) (hopen : g.frozen = false)
    (hone : g.At level) (hcap : (maxMs : ℚ) - minMs ≤ level * grow)
    (hrest : Round weight level gs (spare - ((maxMs : ℚ) - minMs)) out) :
    Round weight level (g :: gs) spare
      ({ g with dur := maxMs, frozen := true } :: out.1, out.2.1, true) := by
  unfold Growing.At at hone
  rw [hdur, hopen] at hone
  obtain ⟨hrange, hgrow, hmin⟩ := hone
  simp only [Bool.false_eq_true, if_false] at hmin
  have hroom : (0 : ℚ) ≤ maxMs - minMs := by
    have : (minMs : ℚ) ≤ maxMs := by exact_mod_cast hrange
    linarith
  have hfrozen : Growing.At level { g with dur := maxMs, frozen := true } := by
    unfold Growing.At
    rw [hdur]
    exact ⟨hrange, hgrow, by simpa using hcap⟩
  have hweightg : g.weight = grow := by
    unfold Growing.weight
    rw [hdur]
    simp [hopen]
  have hweight0 : Growing.weight { g with dur := maxMs, frozen := true } = 0 := by
    unfold Growing.weight
    rw [hdur]
    simp
  have hclosed : Growing.open_ { g with dur := maxMs, frozen := true } = false := by
    simp [Growing.open_]
  have hwas : g.open_ = true := by
    simp [Growing.open_, Segment.isFixed, hdur, hopen]
  constructor
  · exact List.forall_mem_cons.mpr ⟨hfrozen, hrest.at_⟩
  · simp only [List.map_cons, hrest.segments]
  · have := hrest.left
    simp only [totalDur_cons, hmin]
    linarith
  · have := hrest.less
    dsimp only
    linarith
  · have := hrest.below
    simp only [totalWeight_cons, hweightg, hweight0]
    linarith
  · intro _
    have := hrest.count
    simp only [List.countP_cons, hclosed, hwas]
    simp only [Bool.false_eq_true, if_false, if_true]
    omega
  · simp
  · have := hrest.count
    simp only [List.countP_cons, hclosed, hwas]
    simp only [Bool.false_eq_true, if_false, if_true]
    omega

end

theorem freezeRound_round {weight level spare : ℚ} (hweight : 0 < weight)
    (hlevel : spare / weight ≤ level) {gs : List Growing} (h : ∀ g ∈ gs, g.At level) :
    Round weight level gs spare (freezeRound weight gs spare) := by
  induction gs generalizing spare with
  | nil =>
    constructor <;> simp [freezeRound]
  | cons g gs ih =>
    have hone := h g List.mem_cons_self
    have hgs : ∀ g' ∈ gs, g'.At level := fun g' hg' => h g' (List.mem_cons_of_mem _ hg')
    rw [freezeRound]
    cases hdur : g.segment.duration with
    | fixed ms =>
      refine (ih hlevel hgs).keep hone fun _ _ _ hflex => ?_
      rw [hdur] at hflex
      cases hflex
    | flex minMs maxMs grow =>
      dsimp only
      split_ifs with hover
      · simp only [Bool.and_eq_true, Bool.not_eq_true', decide_eq_true_eq] at hover
        obtain ⟨hopen, hpast⟩ := hover
        have hat := hone
        unfold Growing.At at hat
        rw [hdur] at hat
        obtain ⟨hrange, hgrow, -⟩ := hat
        have hcap : (maxMs : ℚ) - minMs ≤ level * grow := by
          have hshare : spare * grow / weight = spare / weight * grow := by ring
          have := mul_le_mul_of_nonneg_right hlevel hgrow
          linarith
        have hroom : (minMs : ℚ) ≤ maxMs := by exact_mod_cast hrange
        have hlevel' : (spare - ((maxMs : ℚ) - minMs)) / weight ≤ level :=
          (div_le_div_of_nonneg_right (by linarith) hweight.le).trans hlevel
        exact Round.freeze hdur hopen hone hcap (ih hlevel' hgs)
      · refine (ih hlevel hgs).keep hone fun minMs' maxMs' grow' hflex hopen => ?_
        rw [hdur] at hflex
        cases hflex
        simp only [hopen, Bool.not_false, Bool.true_and, decide_eq_true_eq, not_lt] at hover
        exact hover

theorem weight_le_total {level : ℚ} {gs : List Growing} (h : ∀ g ∈ gs, g.At level) {g : Growing}
    (hg : g ∈ gs) : g.weight ≤ totalWeight gs := by
  refine List.single_le_sum (fun x hx => ?_) _ (List.mem_map_of_mem hg)
  obtain ⟨g', hg', rfl⟩ := List.mem_map.mp hx
  exact (h g' hg').weight_nonneg

/-- A segment no level raises any more is filled to it. -/
theorem Growing.At.filledTo {level : ℚ} {g : Growing} (h : g.At level)
    (hrest : level * g.weight = 0) : g.FilledTo level := by
  unfold Growing.At at h
  unfold Growing.FilledTo
  unfold Growing.weight at hrest
  cases hdur : g.segment.duration with
  | fixed ms =>
    rw [hdur] at h
    exact h
  | flex minMs maxMs grow =>
    rw [hdur] at h hrest
    obtain ⟨hrange, -, hat⟩ := h
    have hle : (minMs : ℚ) ≤ maxMs := by exact_mod_cast hrange
    dsimp only at hrest ⊢
    split_ifs at hat hrest with hfrozen
    · rw [hat.1, min_eq_left (by linarith)]
    · rw [hat, hrest, add_zero, min_eq_right hle]

theorem Growing.At.full {level : ℚ} {g : Growing} (h : g.At level) (hnone : g.weight = 0) :
    g.Full := by
  intro minMs maxMs grow hdur hgrow
  unfold Growing.At at h
  unfold Growing.weight at hnone
  rw [hdur] at h hnone
  dsimp only at hnone
  obtain ⟨-, -, hat⟩ := h
  split_ifs at hat hnone
  · exact hat.1
  · linarith

/-- The last round raises every segment still open by its share. -/
theorem Growing.At.share {level spare weight : ℚ} {g : Growing} (h : g.At level)
    (hlevel : level ≤ spare / weight) (hfits : ∀ minMs maxMs grow,
      g.segment.duration = .flex minMs maxMs grow → g.frozen = false →
        minMs + spare * grow / weight ≤ maxMs) :
    (g.share spare weight).FilledTo (spare / weight) ∧
      (g.share spare weight).dur = g.dur + spare / weight * g.weight := by
  have hup := h.mono hlevel
  unfold Growing.At at hup
  unfold Growing.share Growing.FilledTo Growing.weight
  cases hdur : g.segment.duration with
  | fixed ms =>
    rw [hdur] at hup
    dsimp only
    rw [hdur]
    exact ⟨hup, by ring⟩
  | flex minMs maxMs grow =>
    rw [hdur] at hup
    obtain ⟨-, -, hat⟩ := hup
    dsimp only
    split_ifs at hat ⊢ with hfrozen
    · rw [hdur]
      refine ⟨?_, by ring⟩
      dsimp only
      rw [hat.1, min_eq_left (by linarith)]
    · have := hfits minMs maxMs grow hdur (by simpa using hfrozen)
      have hshare : spare / weight * grow = spare * grow / weight := by ring
      dsimp only
      rw [hdur]
      refine ⟨?_, by rw [hat, hshare]⟩
      dsimp only
      rw [hshare, min_eq_right this]

theorem totalDur_share {level spare weight : ℚ} {gs : List Growing} (h : ∀ g ∈ gs, g.At level)
    (hlevel : level ≤ spare / weight) (hfits : ∀ g ∈ gs, ∀ minMs maxMs grow,
      g.segment.duration = .flex minMs maxMs grow → g.frozen = false →
        minMs + spare * grow / weight ≤ maxMs) :
    totalDur (gs.map (Growing.share spare weight)) =
      totalDur gs + spare / weight * totalWeight gs := by
  induction gs with
  | nil => simp [totalDur, totalWeight]
  | cons g gs ih =>
    have hone := ((h g List.mem_cons_self).share hlevel (hfits g List.mem_cons_self)).2
    have hrest := ih (fun g' hg' => h g' (List.mem_cons_of_mem _ hg'))
      fun g' hg' => hfits g' (List.mem_cons_of_mem _ hg')
    rw [List.map_cons, totalDur_cons, totalDur_cons, totalWeight_cons, hone, hrest]
    ring

theorem share_segment (spare weight : ℚ) (g : Growing) :
    (g.share spare weight).segment = g.segment := by
  unfold Growing.share
  cases g.segment.duration with
  | fixed ms => rfl
  | flex minMs maxMs grow =>
    dsimp only
    split_ifs <;> rfl

/-- What sharing leaves: every segment filled to one level, and all the spare time used unless
each segment that grows is at its longest. -/
structure WaterFilled (gs : List Growing) (total : ℚ) : Prop where
  level : ∃ level, 0 ≤ level ∧ ∀ g ∈ gs, g.FilledTo level
  le : totalDur gs ≤ total
  used : totalDur gs = total ∨ ∀ g ∈ gs, g.Full

theorem growFlex_fills (fuel : ℕ) {gs : List Growing} {level spare : ℚ}
    (hat : ∀ g ∈ gs, g.At level) (hlevel : 0 ≤ level) (hspare : 0 ≤ spare)
    (hbelow : level * totalWeight gs ≤ spare) (hfuel : gs.countP Growing.open_ < fuel) :
    (growFlex fuel gs spare).map Growing.segment = gs.map Growing.segment ∧
      WaterFilled (growFlex fuel gs spare) (totalDur gs + spare) := by
  induction fuel generalizing gs level spare with
  | zero => omega
  | succ fuel ih =>
    have hweight := totalWeight_nonneg hat
    rw [growFlex]
    dsimp only
    split_ifs with hstop hfroze
    · refine ⟨rfl, ?_⟩
      change totalWeight gs ≤ 0 ∨ spare ≤ 0 at hstop
      have hrest : ∀ g ∈ gs, level * g.weight = 0 := by
        intro g hg
        have hle := weight_le_total hat hg
        have hnonneg := (hat g hg).weight_nonneg
        rcases hstop with hnone | hnone
        · rw [show g.weight = 0 by linarith, mul_zero]
        · have hup := mul_le_mul_of_nonneg_left hle hlevel
          have hlow := mul_nonneg hlevel hnonneg
          linarith
      refine ⟨⟨level, hlevel, fun g hg => (hat g hg).filledTo (hrest g hg)⟩, by linarith, ?_⟩
      rcases hstop with hnone | hnone
      · right
        intro g hg
        have hle := weight_le_total hat hg
        have hnonneg := (hat g hg).weight_nonneg
        exact (hat g hg).full (by linarith)
      · left
        linarith
    · push Not at hstop
      change 0 < totalWeight gs ∧ 0 < spare at hstop
      change (freezeRound (totalWeight gs) gs spare).2.2 = true at hfroze
      change (growFlex fuel (freezeRound (totalWeight gs) gs spare).1
        (freezeRound (totalWeight gs) gs spare).2.1).map Growing.segment = _ ∧
        WaterFilled (growFlex fuel (freezeRound (totalWeight gs) gs spare).1
        (freezeRound (totalWeight gs) gs spare).2.1) _
      have hup : level ≤ spare / totalWeight gs := (le_div_iff₀ hstop.1).mpr hbelow
      have hround := freezeRound_round hstop.1 (le_refl (spare / totalWeight gs))
        fun g hg => (hat g hg).mono hup
      have hcover : spare / totalWeight gs * totalWeight gs = spare :=
        div_mul_cancel₀ _ hstop.1.ne'
      have hleft : spare / totalWeight gs *
          totalWeight (freezeRound (totalWeight gs) gs spare).1 ≤
            (freezeRound (totalWeight gs) gs spare).2.1 := by
        have := hround.below
        rw [mul_sub, hcover] at this
        linarith
      have hnonneg : 0 ≤ spare / totalWeight gs := div_nonneg hspare hweight
      have hopen := totalWeight_nonneg hround.at_
      obtain ⟨hsegments, hfilled⟩ := ih hround.at_ hnonneg
        ((mul_nonneg hnonneg hopen).trans hleft) hleft
        (by have := hround.froze hfroze; omega)
      refine ⟨hsegments.trans hround.segments, ?_⟩
      have htotal := hround.left
      rwa [show totalDur (freezeRound (totalWeight gs) gs spare).1 +
        (freezeRound (totalWeight gs) gs spare).2.1 = totalDur gs + spare by linarith] at hfilled
    · push Not at hstop
      change 0 < totalWeight gs ∧ 0 < spare at hstop
      change ¬ (freezeRound (totalWeight gs) gs spare).2.2 = true at hfroze
      change (gs.map (Growing.share spare (totalWeight gs))).map Growing.segment = _ ∧
        WaterFilled (gs.map (Growing.share spare (totalWeight gs))) _
      have hup : level ≤ spare / totalWeight gs := (le_div_iff₀ hstop.1).mpr hbelow
      have hround := freezeRound_round hstop.1 (le_refl (spare / totalWeight gs))
        fun g hg => (hat g hg).mono hup
      obtain ⟨-, -, hfits⟩ := hround.still (by simpa using hfroze)
      have htotal := totalDur_share hat hup hfits
      rw [div_mul_cancel₀ _ hstop.1.ne'] at htotal
      refine ⟨?_, ⟨spare / totalWeight gs, div_nonneg hspare hweight, ?_⟩, htotal.le,
        Or.inl htotal⟩
      · rw [List.map_map]
        exact List.map_congr_left fun g _ => share_segment _ _ g
      · intro g hg
        obtain ⟨g', hg', rfl⟩ := List.mem_map.mp hg
        exact ((hat g' hg').share hup (hfits g' hg')).1

end EtvStation.Bumper
