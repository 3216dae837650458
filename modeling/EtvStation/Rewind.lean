import EtvStation.CatchUp
import EtvStation.Lib.Traces

/-! The checkpoint trail over a run of generations: what a rewind to an item boundary restores, and
when the checkpoint it stands on has been pruned from under it. -/
namespace EtvStation

/-- A channel's sidecar and clock, with every boundary on its schedule and the state recorded as
it was written. -/
structure Trail where
  resume : ResumeMap := {}
  now : ℤ := 0
  boundaries : List (ℤ × Progress) := []
  deriving DecidableEq

inductive TrailAct where
  /-- A generation begins. -/
  | checkpoint (start : ℤ)
  /-- One of its later items begins. -/
  | checkpointAt (start : ℤ) (progress : Progress)
  /-- It is done: the state after it is taken, and what has aired by `now` pruned. -/
  | adopt (next : ResumeMap) (now : ℤ)
  /-- The schedule from `at_` on is thrown away. -/
  | rewind (at_ : ℤ)
  deriving DecidableEq

namespace Trail

def take (t : Trail) : TrailAct → Trail
  | .checkpoint start => { t with
      resume := t.resume.checkpoint start
      boundaries := t.boundaries ++ [(start, t.resume.toProgress)] }
  | .checkpointAt start progress => { t with
      resume := t.resume.checkpointAt start progress
      boundaries := t.boundaries ++ [(start, progress)] }
  | .adopt next now => { t with resume := t.resume.adopt next now, now }
  | .rewind at_ => { t with
      resume := match t.resume.rewindTo at_ with
        | (restored, some _) => restored
        | (_, none) => t.resume.forgetRotationDrawsFrom at_
      boundaries := t.boundaries.filter fun b => b.1 < at_ }

def step (t : Trail) (a : TrailAct) : Option (Trail × List Empty) := some (t.take a, [])

/-- One generation's acts: its start, its later items, its end. -/
def generation (from_ now : ℤ) (boundaries : List (ℤ × Progress)) (next : ResumeMap) :
    List TrailAct :=
  .checkpoint from_ :: ((boundaries.filter fun b => b.1 > from_).map fun b =>
    .checkpointAt b.1 b.2) ++ [.adopt next now]

/-- The daemon's own bookkeeping of a generation is these acts. -/
theorem generation_resume (t : Trail) (from_ now : ℤ) (boundaries : List (ℤ × Progress))
    (next : ResumeMap) : ((generation from_ now boundaries next).foldl take t).resume =
      ((t.resume.checkpoint from_).checkpointAll from_ boundaries).adopt next now := by
  have hmarks : ∀ (l : List (ℤ × Progress)) (t : Trail),
      (l.foldl (fun t b => t.take (.checkpointAt b.1 b.2)) t).resume =
        l.foldl (fun m b => m.checkpointAt b.1 b.2) t.resume := by
    intro l t
    exact (List.foldl_hom resume fun _ _ => rfl).symm
  have hlaid := hmarks (boundaries.filter fun b => b.1 > from_) (t.take (.checkpoint from_))
  rw [generation, List.foldl_append, List.foldl_cons, List.foldl_nil, List.foldl_cons,
    List.foldl_map]
  calc ResumeMap.adopt _ next now
      = ((boundaries.filter fun b => b.1 > from_).foldl (fun m b => m.checkpointAt b.1 b.2)
          (t.resume.checkpoint from_)).adopt next now :=
        congrArg (fun m => ResumeMap.adopt m next now) hlaid
    _ = ((t.resume.checkpoint from_).checkpointAll from_ boundaries).adopt next now := by
        rw [List.foldl_filter]
        simp only [ResumeMap.checkpointAll, decide_eq_true_eq]

/-- Items are laid end to end, the clock does not go back, and a rewind goes to a boundary on the
schedule that has not aired. -/
def Takes (t : Trail) : TrailAct → Prop
  | .checkpoint start | .checkpointAt start _ => ∀ b ∈ t.boundaries, b.1 ≤ start
  | .adopt _ now => t.now ≤ now
  | .rewind at_ => t.now < at_ ∧ at_ ∈ t.boundaries.map Prod.fst

/-- No item is of zero length, and what is dropped from the trail is not what an unaired boundary
stands on: some checkpoint that stays stands between. -/
def Spares (t : Trail) : TrailAct → Prop
  | .checkpoint start | .checkpointAt start _ => ∀ b ∈ t.boundaries, b.1 < start
  | .adopt _ now => ∀ b ∈ t.boundaries, now < b.1 →
      ∃ c ∈ t.resume.checkpoints, now < c.start ∧ c.start ≤ b.1
  | .rewind at_ => ∀ b ∈ t.boundaries, t.now < b.1 → b.1 < at_ →
      ∃ c ∈ t.resume.checkpoints, b.1 < c.start ∧ c.start ≤ at_

instance (t : Trail) (a : TrailAct) : Decidable (t.Takes a) :=
  match a with
  | .checkpoint start => inferInstanceAs (Decidable (∀ b ∈ t.boundaries, b.1 ≤ start))
  | .checkpointAt start _ => inferInstanceAs (Decidable (∀ b ∈ t.boundaries, b.1 ≤ start))
  | .adopt _ now => inferInstanceAs (Decidable (t.now ≤ now))
  | .rewind at_ => inferInstanceAs (Decidable (t.now < at_ ∧ at_ ∈ t.boundaries.map Prod.fst))

instance (t : Trail) (a : TrailAct) : Decidable (t.Spares a) :=
  match a with
  | .checkpoint start => inferInstanceAs (Decidable (∀ b ∈ t.boundaries, b.1 < start))
  | .checkpointAt start _ => inferInstanceAs (Decidable (∀ b ∈ t.boundaries, b.1 < start))
  | .adopt _ now => inferInstanceAs (Decidable (∀ b ∈ t.boundaries, now < b.1 →
      ∃ c ∈ t.resume.checkpoints, now < c.start ∧ c.start ≤ b.1))
  | .rewind at_ => inferInstanceAs (Decidable (∀ b ∈ t.boundaries, t.now < b.1 → b.1 < at_ →
      ∃ c ∈ t.resume.checkpoints, b.1 < c.start ∧ c.start ≤ at_))

/-- The trails of a channel that was new once, with acts that meet `ok`. -/
def Runs (ok : Trail → TrailAct → Prop) (t : Trail) : Prop :=
  Lib.Traced step (fun t a => t.Takes a ∧ ok t a) {} t []

/-- A rewind to any boundary still to air finds a checkpoint and restores the state recorded for
that boundary, and the checkpoints stand in order. -/
structure Restores (t : Trail) : Prop where
  rewinds : ∀ b ∈ t.boundaries, t.now < b.1 →
    (t.resume.rewindTo b.1).2.isSome ∧ (t.resume.rewindTo b.1).1.toProgress = b.2
  increasing : t.resume.checkpoints.Pairwise fun c d => c.start < d.start

/-- What carries it: the last checkpoint up to an unaired boundary holds the boundary's state. -/
structure Sound (t : Trail) : Prop where
  increasing : t.resume.checkpoints.Pairwise fun c d => c.start < d.start
  recorded : ∀ c ∈ t.resume.checkpoints, ∃ b ∈ t.boundaries, b.1 = c.start
  holds : ∀ b ∈ t.boundaries, t.now < b.1 →
    ((t.resume.checkpoints.filter fun c => c.start ≤ b.1).getLast?).map (·.toProgress) = some b.2

end Trail

/-- In a trail in order, what a rewind looks through is what stands at or before its instant. -/
theorem rdropWhile_eq_filter {checkpoints : List Checkpoint} {instant : ℤ}
    (h : checkpoints.Pairwise fun c d => c.start < d.start) :
    checkpoints.rdropWhile (fun c => c.start > instant) =
      checkpoints.filter fun c => c.start ≤ instant := by
  induction checkpoints using List.reverseRecOn with
  | nil => rfl
  | append_singleton checkpoints c ih =>
    have hfront := (List.pairwise_append.mp h).1
    have hbefore := (List.pairwise_append.mp h).2.2
    by_cases hc : c.start > instant
    · rw [List.rdropWhile_concat, if_pos (decide_eq_true hc), ih hfront, List.filter_append,
        List.filter_singleton]
      have hnot : decide (c.start ≤ instant) = false := decide_eq_false (not_le.mpr hc)
      rw [hnot]
      simp
    · rw [List.rdropWhile_concat, if_neg (by simpa using hc)]
      refine (List.filter_eq_self.mpr fun d hd => decide_eq_true ?_).symm
      rcases List.mem_append.mp hd with hd | hd
      · have := hbefore d hd c (List.mem_singleton_self c)
        omega
      · rw [List.mem_singleton.mp hd]
        exact not_lt.mp hc

theorem rewindTo_of {m : ResumeMap} {instant : ℤ} {front : List Checkpoint} {cp : Checkpoint}
    (h : m.checkpoints.Pairwise fun c d => c.start < d.start)
    (hfront : m.checkpoints.filter (fun c => c.start ≤ instant) = front ++ [cp]) :
    m.rewindTo instant =
      ({ m with toProgress := cp.toProgress, checkpoints := front }, some cp.start) := by
  have hlook := (@rdropWhile_eq_filter _ instant h).trans hfront
  unfold ResumeMap.rewindTo
  rw [hlook, List.getLast?_concat, List.dropLast_concat]

theorem getLast?_filter_of {α : Type} {l : List α} {a : α} {p : α → Bool}
    (h : l.getLast? = some a) (hp : p a = true) : (l.filter p).getLast? = some a := by
  obtain ⟨front, rfl⟩ := List.getLast?_eq_some_iff.mp h
  rw [List.filter_append, List.filter_singleton, hp]
  exact List.getLast?_concat

namespace Trail

variable {t t' : Trail}

theorem Sound.restores (h : t.Sound) : t.Restores := by
  refine ⟨fun b hb hafter => ?_, h.increasing⟩
  have hholds := h.holds b hb hafter
  obtain ⟨cp, hcp, hstate⟩ := Option.map_eq_some_iff.mp hholds
  obtain ⟨front, hfront⟩ := List.getLast?_eq_some_iff.mp hcp
  rw [rewindTo_of h.increasing hfront]
  exact ⟨rfl, hstate⟩

theorem sound_init : Sound {} :=
  ⟨List.Pairwise.nil, fun _ hc => absurd hc List.not_mem_nil,
    fun _ hb => absurd hb List.not_mem_nil⟩

/-- A boundary later than every other gets a checkpoint of its own, or stands on the last. -/
theorem Sound.push (h : t.Sound) {start : ℤ} (hlater : ∀ b ∈ t.boundaries, b.1 < start)
    (progress : Progress) {checkpoints : List Checkpoint}
    (hpush : checkpoints = t.resume.checkpoints ++ [{ progress with start }]) :
    (checkpoints.Pairwise fun c d => c.start < d.start) ∧
    (∀ c ∈ checkpoints, ∃ b ∈ t.boundaries ++ [(start, progress)], b.1 = c.start) ∧
    ∀ b ∈ t.boundaries ++ [(start, progress)], t.now < b.1 →
      ((checkpoints.filter fun c => c.start ≤ b.1).getLast?).map (·.toProgress) = some b.2 := by
  have hbefore : ∀ c ∈ t.resume.checkpoints, c.start < start := by
    intro c hc
    obtain ⟨b, hb, hbc⟩ := h.recorded c hc
    rw [← hbc]
    exact hlater b hb
  subst hpush
  refine ⟨?_, ?_, ?_⟩
  · refine List.pairwise_append.mpr ⟨h.increasing, List.pairwise_singleton _ _, fun c hc d hd => ?_⟩
    rw [List.mem_singleton.mp hd]
    exact hbefore c hc
  · intro c hc
    rcases List.mem_append.mp hc with hc | hc
    · obtain ⟨b, hb, hbc⟩ := h.recorded c hc
      exact ⟨b, List.mem_append_left _ hb, hbc⟩
    · rw [List.mem_singleton.mp hc]
      exact ⟨(start, progress), List.mem_append_right _ (List.mem_singleton_self _), rfl⟩
  · intro b hb hafter
    rw [List.filter_append, List.filter_singleton]
    rcases List.mem_append.mp hb with hb | hb
    · have hnot : decide (start ≤ b.1) = false := decide_eq_false (not_le.mpr (hlater b hb))
      simp only [hnot]
      simpa using h.holds b hb hafter
    · rw [List.mem_singleton.mp hb]
      simp

theorem Sound.skip (h : t.Sound) {start : ℤ} (hlater : ∀ b ∈ t.boundaries, b.1 < start)
    {last : Checkpoint} (hlast : t.resume.checkpoints.getLast? = some last) :
    (∀ c ∈ t.resume.checkpoints, ∃ b ∈ t.boundaries ++ [(start, last.toProgress)], b.1 = c.start) ∧
    ∀ b ∈ t.boundaries ++ [(start, last.toProgress)], t.now < b.1 →
      ((t.resume.checkpoints.filter fun c => c.start ≤ b.1).getLast?).map (·.toProgress) =
        some b.2 := by
  constructor
  · intro c hc
    obtain ⟨b, hb, hbc⟩ := h.recorded c hc
    exact ⟨b, List.mem_append_left _ hb, hbc⟩
  · intro b hb hafter
    rcases List.mem_append.mp hb with hb | hb
    · exact h.holds b hb hafter
    · rw [List.mem_singleton.mp hb]
      have hall : t.resume.checkpoints.filter (fun c => c.start ≤ start) =
          t.resume.checkpoints := by
        refine List.filter_eq_self.mpr fun c hc => decide_eq_true ?_
        obtain ⟨b', hb', hbc⟩ := h.recorded c hc
        rw [← hbc]
        exact (hlater b' hb').le
      simp only [hall, hlast, Option.map_some]

theorem Sound.checkpointAt (h : t.Sound) {start : ℤ} (hlater : ∀ b ∈ t.boundaries, b.1 < start)
    (progress : Progress) : Sound { t with
      resume := t.resume.checkpointAt start progress
      boundaries := t.boundaries ++ [(start, progress)] } := by
  cases hlast : t.resume.checkpoints.getLast? with
  | none =>
    have hpush : (t.resume.checkpointAt start progress).checkpoints =
        t.resume.checkpoints ++ [{ progress with start }] := by
      simp only [ResumeMap.checkpointAt, hlast]
    obtain ⟨hincreasing, hrecorded, hholds⟩ := h.push hlater progress hpush
    exact ⟨hincreasing, hrecorded, hholds⟩
  | some last =>
    obtain ⟨b, hb, hbl⟩ := h.recorded last (List.mem_of_getLast? hlast)
    have hearlier : ¬ last.start ≥ start := by
      rw [← hbl]
      exact not_le.mpr (hlater b hb)
    by_cases hsame : last.toProgress = progress
    · have hskip : t.resume.checkpointAt start progress = t.resume := by
        simp only [ResumeMap.checkpointAt, hlast]
        rw [if_pos (Or.inr hsame)]
      rw [hskip, ← hsame]
      obtain ⟨hrecorded, hholds⟩ := h.skip hlater hlast
      exact ⟨h.increasing, hrecorded, hholds⟩
    · have hpush : (t.resume.checkpointAt start progress).checkpoints =
          t.resume.checkpoints ++ [{ progress with start }] := by
        simp only [ResumeMap.checkpointAt, hlast]
        rw [if_neg (not_or.mpr ⟨hearlier, hsame⟩)]
      obtain ⟨hincreasing, hrecorded, hholds⟩ := h.push hlater progress hpush
      exact ⟨hincreasing, hrecorded, hholds⟩

/-- The last checkpoint up to a boundary is the latest of those there. -/
theorem Sound.le_last (h : t.Sound) {instant : ℤ} {cp c : Checkpoint}
    (hcp : (t.resume.checkpoints.filter fun c => c.start ≤ instant).getLast? = some cp)
    (hc : c ∈ t.resume.checkpoints) (hle : c.start ≤ instant) : c.start ≤ cp.start := by
  have hin : c ∈ t.resume.checkpoints.filter fun c => c.start ≤ instant :=
    List.mem_filter.mpr ⟨hc, decide_eq_true hle⟩
  have hsorted := h.increasing.filter fun c => decide (c.start ≤ instant)
  obtain ⟨front, hfront⟩ := List.getLast?_eq_some_iff.mp hcp
  rw [hfront] at hin hsorted
  rcases List.mem_append.mp hin with hin | hin
  · exact ((List.pairwise_append.mp hsorted).2.2 c hin cp (List.mem_singleton_self cp)).le
  · rw [List.mem_singleton.mp hin]

theorem Sound.adopt (h : t.Sound) {next : ResumeMap} {now : ℤ} (hnow : t.now ≤ now)
    (hspares : t.Spares (.adopt next now)) :
    Sound { t with resume := t.resume.adopt next now, now } := by
  have hleft : (t.resume.adopt next now).checkpoints =
      t.resume.checkpoints.filter fun c => c.start > now := rfl
  refine ⟨?_, ?_, ?_⟩
  · rw [hleft]
    exact h.increasing.filter _
  · intro c hc
    rw [hleft] at hc
    exact h.recorded c (List.mem_filter.mp hc).1
  · intro b hb hafter
    obtain ⟨cp, hcp, hstate⟩ := Option.map_eq_some_iff.mp (h.holds b hb (hnow.trans_lt hafter))
    obtain ⟨c, hc, hcnow, hcb⟩ := hspares b hb hafter
    have hlate : decide (cp.start > now) = true :=
      decide_eq_true (hcnow.trans_le (h.le_last hcp hc hcb))
    rw [hleft, List.filter_comm, getLast?_filter_of hcp hlate]
    exact congrArg some hstate

theorem Sound.rewind (h : t.Sound) {at_ : ℤ} (htakes : t.Takes (.rewind at_))
    (hspares : t.Spares (.rewind at_)) : (t.take (.rewind at_)).Sound := by
  obtain ⟨hunaired, hboundary⟩ := htakes
  obtain ⟨to_, hto, hat⟩ := List.mem_map.mp hboundary
  obtain ⟨cp, hcp, -⟩ := Option.map_eq_some_iff.mp (h.holds to_ hto (hat ▸ hunaired))
  rw [hat] at hcp
  obtain ⟨front, hfront⟩ := List.getLast?_eq_some_iff.mp hcp
  have hleft : (t.take (.rewind at_)).resume.checkpoints = front := by
    simp only [take, rewindTo_of h.increasing hfront]
  have hsorted := h.increasing.filter fun c : Checkpoint => decide (c.start ≤ at_)
  rw [hfront] at hsorted
  have hmem : ∀ c ∈ front, c ∈ t.resume.checkpoints := by
    intro c hc
    have hin := List.mem_append_left [cp] hc
    rw [← hfront] at hin
    exact (List.mem_filter.mp hin).1
  have hcple : cp.start ≤ at_ :=
    of_decide_eq_true (List.mem_filter.mp (List.mem_of_getLast? hcp)).2
  refine ⟨?_, ?_, ?_⟩
  · rw [hleft]
    exact (List.pairwise_append.mp hsorted).1
  · intro c hc
    rw [hleft] at hc
    obtain ⟨b, hb, hbc⟩ := h.recorded c (hmem c hc)
    have hccp := (List.pairwise_append.mp hsorted).2.2 c hc cp (List.mem_singleton_self cp)
    refine ⟨b, List.mem_filter.mpr ⟨hb, decide_eq_true ?_⟩, hbc⟩
    rw [hbc]
    exact hccp.trans_le hcple
  · intro b hb hafter
    obtain ⟨hb, hearlier⟩ := List.mem_filter.mp hb
    obtain ⟨c, hc, hbc, hcle⟩ := hspares b hb hafter (of_decide_eq_true hearlier)
    have hdropped : decide (cp.start ≤ b.1) = false :=
      decide_eq_false (not_le.mpr (hbc.trans_le (h.le_last hcp hc hcle)))
    -- up to `b` the trail is as it was: the one dropped stands later
    have hkept : front.filter (fun c => c.start ≤ b.1) =
        t.resume.checkpoints.filter fun c => c.start ≤ b.1 := by
      calc front.filter (fun c => c.start ≤ b.1)
          = (front ++ [cp]).filter (fun c => c.start ≤ b.1) := by
            rw [List.filter_append, List.filter_singleton, hdropped]
            simp
        _ = t.resume.checkpoints.filter fun c => c.start ≤ b.1 := by
            rw [← hfront, List.filter_filter]
            refine List.filter_congr fun c _ => ?_
            have := of_decide_eq_true hearlier
            by_cases hcb : c.start ≤ b.1
            · simp [hcb, hcb.trans this.le]
            · simp [hcb]
    rw [hleft, hkept]
    exact h.holds b hb hafter

theorem Sound.take (h : t.Sound) {a : TrailAct} (htakes : t.Takes a) (hspares : t.Spares a) :
    (t.take a).Sound := by
  cases a with
  | checkpoint start =>
    obtain ⟨hincreasing, hrecorded, hholds⟩ := h.push hspares t.resume.toProgress rfl
    exact ⟨hincreasing, hrecorded, hholds⟩
  | checkpointAt start progress => exact h.checkpointAt hspares progress
  | adopt next now => exact h.adopt htakes hspares
  | rewind at_ => exact h.rewind htakes hspares

/-- Where no item is of zero length and nothing dropped is stood on, every boundary still to air
can be rewound to, however generations, prunes and rewinds come. -/
theorem rewind_restores (h : Runs Spares t) : t.Restores := by
  have hsound : t.Sound := by
    refine Lib.Traced.invariant (I := fun t _ => t.Sound) sound_init ?_ h
    intro t _ a t' _ hinv hok hstep
    cases hstep
    exact hinv.take hok.1 hok.2
  exact hsound.restores

/-- Two evenings, the second one's cut off again while the first one's bumper has not begun. -/
def evening : List TrailAct :=
  generation 0 0 [(10, { position := 1 }), (20, { position := 1 })] { position := 2 } ++
    generation 30 5 [] { position := 3 } ++ [.rewind 30]

theorem rewind_restores_evening : (evening.foldl take {}).Restores := by
  refine rewind_restores ?_
  have hrun : Lib.follow step (fun t a => t.Takes a ∧ t.Spares a) ({}, []) evening =
      some (evening.foldl take {}, []) := by
    decide +kernel
  exact Lib.Traced.init.follow hrun

/-- A programme, a bumper and a programme, pruned while the bumper airs. -/
def bumperAired : List TrailAct :=
  generation 0 0 [(10, { position := 1 }), (20, { position := 1 })] { position := 2 } ++
    generation 30 15 [] { position := 3 }

/-- The bumper's checkpoint stood for the second programme's as well: with it gone, nothing is
left to rewind to. -/
theorem bumperAired_lost : Runs (fun _ _ => True) (bumperAired.foldl take {}) ∧
    (20, ({ position := 1 } : Progress)) ∈ (bumperAired.foldl take {}).boundaries ∧
    (bumperAired.foldl take {}).now = 15 ∧
    ((bumperAired.foldl take {}).resume.rewindTo 20).2 = none ∧
    ¬ (bumperAired.foldl take {}).Restores := by
  have hboundary :
      (20, ({ position := 1 } : Progress)) ∈ (bumperAired.foldl take {}).boundaries := by
    decide +kernel
  have hnow : (bumperAired.foldl take {}).now = 15 := by decide +kernel
  have hnone : ((bumperAired.foldl take {}).resume.rewindTo 20).2 = none := by decide +kernel
  refine ⟨?_, hboundary, hnow, hnone, fun h => ?_⟩
  · have hrun : Lib.follow step (fun t a => t.Takes a ∧ True) ({}, []) bumperAired =
        some (bumperAired.foldl take {}, []) := by
      decide +kernel
    exact Lib.Traced.init.follow hrun
  · have hsome := (h.rewinds _ hboundary (by rw [hnow]; decide)).1
    rw [hnone] at hsome
    exact absurd hsome Bool.false_ne_true

end Trail

end EtvStation
