import EtvStation.Heal

/-! The catch-up: repair what is on disk, then chain generations until the window is covered. The
roll loop keeps its own copy of the state, and takes the one a catch-up hands back. -/
namespace EtvStation

open Bumper

variable {β : Type}

def MAX_GENERATIONS_PER_TICK : ℕ := 512

def Generation.boundaries (g : Generation β) (env : FillEnv β) (anchor : Option ℤ)
    (firstGeneration : Bool) (from_ : ℤ) : List (ℤ × Progress) :=
  let h := g.hand env anchor firstGeneration from_
  let woven := fillGaps env g.laid h.skip h.seqStart (h.seqStart = from_) g.endProgress
  ((h.rule.itemSpans h.seqStart).map (·.2.1)).zip (woven.progress.drop h.skip)

/-- Checkpoint every item boundary after the generation's own start. -/
def ResumeMap.checkpointAll (m : ResumeMap) (from_ : ℤ) (boundaries : List (ℤ × Progress)) :
    ResumeMap :=
  boundaries.foldl (fun m b => if b.1 > from_ then m.checkpointAt b.1 b.2 else m) m

namespace TickEnv

variable (env : TickEnv β)

def emitChunks (n : ℕ) (rule : Sequential β) (anchor to_ : ℤ) :
    (fuel : ℕ) → ℤ → EStateM Fault (Store β) Unit
  | 0, _ => pure ()
  | fuel + 1, cursor => do
    if cursor < to_ then
      let chunkStart := env.grid.boundary cursor
      let chunkEnd := env.grid.next chunkStart
      match readChunkItems env.os (← get).folder chunkStart with
      | .error (.corrupt name) => throw (.corrupt name)
      | .ok stored =>
        let items := stored ++ rule.itemsCovering anchor cursor chunkEnd
        if !items.isEmpty then
          env.attempt (.writeChunk n chunkStart)
          setFolder fun folder =>
            let file := chunkFile chunkStart chunkEnd items
            removeOtherChunkFiles env.os (writeFile folder file) file
          emitChunks n rule anchor to_ fuel chunkEnd

/-- One generation from `from_`: the state after it and its length, none when it has none. -/
def generation (n : ℕ) (from_ : ℤ) (first : Bool) (resume : ResumeMap) :
    EStateM Fault (Store β) (Option (ResumeMap × ℤ)) := do
  let entering := resume.checkpoint from_
  let ledger := (← get).ledger
  match env.generate n ledger entering from_ env.target with
  | .error message => throw (.generate message)
  | .ok (laid, showIds, next) =>
    let g : Generation β := ⟨laid, next.toProgress, showIds⟩
    let h := g.hand env.fill env.anchor first from_
    let span := h.span from_
    if span ≤ 0 then return none
    env.emitChunks n h.rule h.seqStart (from_ + span) span.toNat from_
    env.attempt (.appendOverlay n)
    env.attempt (.record n)
    modifyThe (Store β) fun s => { s with ledger := s.ledger ++ g.records h from_ }
    let marked := entering.checkpointAll from_ (g.boundaries env.fill env.anchor first from_)
    let adopted := marked.adopt next env.now
    env.attempt (.save (.generation n))
    modifyThe (Store β) fun s => { s with sidecar := adopted }
    return some (adopted, span)

/-- Chain generations until the window is covered, `fuel` of them at the most. -/
def generations : (fuel n : ℕ) → (from_ : ℤ) → (first : Bool) → ResumeMap →
    EStateM Fault (Store β) ResumeMap
  | 0, _, _, _, resume => return resume
  | fuel + 1, n, from_, first, resume => do
    if from_ < env.target then
      match ← env.generation n from_ first resume with
      | none => return resume
      | some (next, span) => generations fuel (n + 1) (from_ + span) false next
    else return resume

/-- Where the written record ends, and whether nothing is written. -/
def frontier : EStateM Fault (Store β) (ℤ × Bool) := do
  let existing ← env.scan .frontier
  env.attempt .account
  return (max ((highestFinish existing).getD env.now) env.now, existing.isEmpty)

def patternCatchUp (resume : ResumeMap) : EStateM Fault (Store β) ResumeMap := do
  env.attempt .loadDurations
  let resume ← env.sweep resume
  let resume ← env.heal resume
  let (from_, startedEmpty) ← env.frontier
  let resume ← env.generations MAX_GENERATIONS_PER_TICK 0 from_ startedEmpty resume
  env.attempt .saveDurations
  return resume

/-- A tick of the loop, which keeps its copy of the state when the catch-up fails. -/
def rollTick (disk : Store β) (resume : ResumeMap) : Store β × ResumeMap :=
  match (env.patternCatchUp resume).run disk with
  | .ok next disk => (disk, next)
  | .error _ disk => (disk, resume)

open Lib (Ensures)

def Covered (s : Store β) : Prop :=
  Ensures env.coverageGap s (fun gap _ => gap = none) fun _ => True

instance (s : Store β) : Decidable (env.Covered s) := inferInstanceAs (Decidable (Ensures _ _ _ _))

/-- Its first generation, if it comes to one, is not completed. -/
def CompletesNone (resume : ResumeMap) (s : Store β) : Prop :=
  Ensures env.frontier s
    (fun at_ s' => at_.1 < env.target →
      Ensures (env.generation 0 at_.1 at_.2 resume) s' (fun out _ => out.isNone) fun _ => True)
    fun _ => True

instance (resume : ResumeMap) (s : Store β) : Decidable (env.CompletesNone resume s) :=
  inferInstanceAs (Decidable (Ensures _ _ _ _))

/-- Up to where it stops, the catch-up rewinds nothing and completes no generation. -/
def SavesNothing (resume : ResumeMap) (s : Store β) : Prop :=
  Ensures (do env.attempt .loadDurations; env.sweep resume) s
    (fun r s₁ => (env.fails (.scan .sweep) = true ∨ ¬ env.Stranded s.folder) ∧
      Ensures (env.heal r) s₁ (fun r s₂ => env.Covered s₁ ∧ env.CompletesNone r s₂) fun _ => True)
    fun _ => True

instance (resume : ResumeMap) (s : Store β) : Decidable (env.SavesNothing resume s) :=
  inferInstanceAs (Decidable (Ensures _ _ _ _))

section Sidecar

variable {env}

theorem attempt_ensures {step : Step} {s : Store β} {Q : Unit → Store β → Prop}
    {E : Store β → Prop} (hq : env.fails step = false → Q () s) (he : E s) :
    Ensures (env.attempt step) s Q E := by
  unfold attempt
  split_ifs with hfails
  · exact he
  · exact hq (Bool.eq_false_iff.mpr hfails)

theorem lift_ensures {α : Type} {x : Except Fault α} {s : Store β} {Q : α → Store β → Prop}
    {E : Store β → Prop} (hq : ∀ a, x = .ok a → Q a s) (he : E s) :
    Ensures (lift x) s Q E := by
  cases x with
  | ok a => exact hq a rfl
  | error e => exact he

theorem scan_ensures {part : Part} {s : Store β} {Q : Folder β → Store β → Prop}
    {E : Store β → Prop} (hq : Q (scanOutputFolder env.os s.folder) s) (he : E s) :
    Ensures (env.scan part) s Q E :=
  (attempt_ensures (Q := fun _ s' => s' = s) (fun _ => rfl) he).bind fun _ _ hs => by
    subst hs
    exact hq

/-- Whether or not it stops, the computation leaves the sidecar as it was. -/
def KeepsSidecar {α : Type} (x : EStateM Fault (Store β) α) : Prop :=
  ∀ (s : Store β) (c : ResumeMap), s.sidecar = c →
    Ensures x s (fun _ s' => s'.sidecar = c) fun s' => s'.sidecar = c

theorem KeepsSidecar.bind {α γ : Type} {x : EStateM Fault (Store β) α}
    {f : α → EStateM Fault (Store β) γ} (hx : KeepsSidecar x) (hf : ∀ a, KeepsSidecar (f a)) :
    KeepsSidecar (x >>= f) :=
  fun s c hs => (hx s c hs).bind fun a s hs => hf a s c hs

theorem keeps_pure {α : Type} (a : α) :
    KeepsSidecar (pure a : EStateM Fault (Store β) α) := fun _ _ hs => hs

theorem keeps_get : KeepsSidecar (get : EStateM Fault (Store β) (Store β)) := fun _ _ hs => hs

theorem modify_keeps (g : Store β → Store β) (h : ∀ s, (g s).sidecar = s.sidecar) :
    KeepsSidecar (modifyThe (Store β) g : EStateM Fault (Store β) Unit) :=
  fun s _ hs => (h s).trans hs

theorem setFolder_keeps (f : Folder β → Folder β) : KeepsSidecar (setFolder f) :=
  modify_keeps _ fun _ => rfl

theorem attempt_keeps (step : Step) : KeepsSidecar (env.attempt step) :=
  fun _ _ hs => attempt_ensures (fun _ => hs) hs

theorem lift_keeps {α : Type} (x : Except Fault α) : KeepsSidecar (lift x : EStateM Fault (Store β) α) :=
  fun _ _ hs => lift_ensures (fun _ _ => hs) hs

theorem scan_keeps (part : Part) : KeepsSidecar (env.scan part) :=
  fun _ _ hs => scan_ensures hs hs

theorem removeFile_keeps (f : ChunkFile β) : KeepsSidecar (env.removeFile f) := by
  unfold removeFile
  split_ifs
  · exact setFolder_keeps _
  · exact fun _ _ hs => hs

theorem forM_keeps {g : ChunkFile β → EStateM Fault (Store β) Unit} (h : ∀ f, KeepsSidecar (g f))
    (files : Folder β) : KeepsSidecar (files.forM g) :=
  fun _ c hs => Ensures.forM files (fun f _ s hs => h f s c hs) hs

theorem truncatePlayoutAt_keeps (cut : ℤ) (f : ChunkFile β) :
    KeepsSidecar (env.truncatePlayoutAt cut f) := by
  refine (lift_keeps _).bind fun items => ?_
  dsimp only
  split_ifs
  · exact keeps_pure ()
  · split
    · exact removeFile_keeps f
    · refine (attempt_keeps _).bind fun _ => (setFolder_keeps _).bind fun _ => ?_
      split_ifs
      · exact removeFile_keeps f
      · exact keeps_pure _

theorem wipePlayoutFrom_keeps (from_ : ℤ) : KeepsSidecar (env.wipePlayoutFrom from_) :=
  (scan_keeps _).bind fun _ => (forM_keeps removeFile_keeps _).bind fun _ =>
    forM_keeps (truncatePlayoutAt_keeps from_) _

theorem regenFloor_keeps (from_ : ℤ) : KeepsSidecar (env.regenFloor from_) := by
  refine (scan_keeps _).bind fun files => ?_
  split
  · exact keeps_pure _
  · exact (lift_keeps _).bind fun _ => keeps_pure _

theorem coverageGap_keeps : KeepsSidecar env.coverageGap := by
  unfold coverageGap
  split_ifs
  · exact keeps_pure _
  · exact (scan_keeps _).bind fun _ => lift_keeps _

theorem frontier_keeps : KeepsSidecar env.frontier :=
  (scan_keeps _).bind fun _ => (attempt_keeps _).bind fun _ => keeps_pure _

theorem emitChunks_keeps (n : ℕ) (rule : Sequential β) (anchor to_ : ℤ) (fuel : ℕ)
    (cursor : ℤ) : KeepsSidecar (env.emitChunks n rule anchor to_ fuel cursor) := by
  induction fuel generalizing cursor with
  | zero => exact keeps_pure ()
  | succ fuel ih =>
    rw [emitChunks]
    split_ifs
    · refine keeps_get.bind fun disk => ?_
      dsimp only
      split
      · exact fun _ _ hs => hs
      · split_ifs
        · exact (attempt_keeps _).bind fun _ => (setFolder_keeps _).bind fun _ => ih _
        · exact keeps_pure _
    · exact keeps_pure _

/-- A rewind that is not saved leaves the sidecar, and one that is hands back what it saved. -/
theorem rewindToSurviving_ensures (part : Part) (resume : ResumeMap) (wipedFrom : ℤ)
    (s : Store β) (c : ResumeMap) (hs : s.sidecar = c) :
    Ensures (env.rewindToSurviving part resume wipedFrom) s (fun r s' => s'.sidecar = r)
      fun s' => s'.sidecar = c := by
  refine (attempt_keeps _ s c hs).bind fun _ s hs => ?_
  refine (keeps_get s c hs).bind fun disk s hs => ?_
  refine (attempt_keeps _ s c hs).bind fun _ s hs => ?_
  refine (modify_keeps _ ?_ s c hs).bind fun _ s hs => ?_
  · exact fun _ => rfl
  · refine (attempt_keeps _ s c hs).bind fun _ s _ => ?_
    exact rfl

/-- The sweep hands back what the sidecar holds, and rewinds only for a stranded file. -/
theorem sweep_ensures (resume : ResumeMap) (s : Store β) (hs : s.sidecar = resume) :
    Ensures (env.sweep resume) s
      (fun r s' => s'.sidecar = r ∧
        (env.fails (.scan .sweep) = true ∨ ¬ env.Stranded s.folder → r = resume))
      fun s' => s'.sidecar = resume := by
  unfold sweep
  split_ifs with hlist
  · exact ⟨hs, fun _ => rfl⟩
  · refine (Ensures.get (Q := fun d s' => s' = s ∧ d = s) ⟨rfl, rfl⟩).bind ?_
    rintro _ _ ⟨rfl, rfl⟩
    refine (setFolder_keeps _ _ _ hs).bind fun _ s' hs' => ?_
    split_ifs with hstranded
    · exact (rewindToSurviving_ensures _ _ _ s' _ hs').mono
        (fun r s' hr => ⟨hr, fun hnot => absurd hstranded (hnot.resolve_left hlist)⟩)
        fun _ hs => hs
    · exact ⟨hs', fun _ => rfl⟩

/-- The heal hands back what the sidecar holds, and rewinds only for a hole. -/
theorem heal_ensures (resume : ResumeMap) (s : Store β) (hs : s.sidecar = resume) :
    Ensures (env.heal resume) s (fun r s' => s'.sidecar = r) fun s' => s'.sidecar = resume := by
  refine (coverageGap_keeps s _ hs).bind fun gap s hs => ?_
  cases gap with
  | none => exact hs
  | some gap =>
    exact (regenFloor_keeps _ s _ hs).bind fun from_ s hs =>
      (wipePlayoutFrom_keeps from_ s _ hs).bind fun _ s hs =>
        rewindToSurviving_ensures _ _ _ s _ hs

theorem heal_covered (resume : ResumeMap) {s : Store β} (h : env.Covered s) :
    Ensures (env.heal resume) s (fun r _ => r = resume) fun _ => True := by
  refine h.bind fun gap s hgap => ?_
  subst hgap
  exact rfl

/-- A generation that is completed hands back what it saved, and one that is not saves
nothing. -/
theorem generation_ensures (n : ℕ) (from_ : ℤ) (first : Bool) (resume : ResumeMap)
    (s : Store β) (hs : s.sidecar = resume) :
    Ensures (env.generation n from_ first resume) s
      (fun out s' => match out with
        | none => s'.sidecar = resume
        | some (next, _) => s'.sidecar = next)
      fun s' => s'.sidecar = resume := by
  refine (keeps_get s _ hs).bind fun disk s hs => ?_
  dsimp only
  split
  · exact hs
  · split_ifs
    · exact hs
    · refine (emitChunks_keeps _ _ _ _ _ _ s _ hs).bind fun _ s hs => ?_
      refine (attempt_keeps _ s _ hs).bind fun _ s hs => ?_
      refine (attempt_keeps _ s _ hs).bind fun _ s hs => ?_
      refine (modify_keeps _ ?_ s _ hs).bind fun _ s hs => ?_
      · exact fun _ => rfl
      · refine (attempt_keeps _ s _ hs).bind fun _ s _ => ?_
        exact rfl

theorem generations_ensures (fuel n : ℕ) (from_ : ℤ) (first : Bool) (resume : ResumeMap)
    (s : Store β) (hs : s.sidecar = resume) :
    Ensures (env.generations fuel n from_ first resume) s (fun r s' => s'.sidecar = r)
      fun _ => True := by
  induction fuel generalizing n from_ first resume s with
  | zero => exact hs
  | succ fuel ih =>
    rw [generations]
    split_ifs
    · refine ((generation_ensures n from_ first resume s hs).mono (fun _ _ h => h)
        fun _ _ => trivial).bind fun out s hout => ?_
      cases out with
      | none => exact hout
      | some out => exact ih _ _ _ _ s hout
    · exact hs

/-- Where no generation is completed, the state is handed back as it came. -/
theorem generations_unsaved (fuel : ℕ) (from_ : ℤ) (first : Bool) (resume : ResumeMap)
    (s : Store β) (hs : s.sidecar = resume)
    (h : from_ < env.target →
      Ensures (env.generation 0 from_ first resume) s (fun out _ => out.isNone) fun _ => True) :
    Ensures (env.generations fuel 0 from_ first resume) s
      (fun r s' => s'.sidecar = r ∧ r = resume) fun s' => s'.sidecar = resume := by
  cases fuel with
  | zero => exact ⟨hs, rfl⟩
  | succ fuel =>
    rw [generations]
    split_ifs with hmore
    · have hnone := (generation_ensures 0 from_ first resume s hs).and (h hmore)
      refine (hnone.mono (fun _ _ h => h) fun _ h => h.1).bind fun out s' hout => ?_
      cases out with
      | none => exact ⟨hout.1, rfl⟩
      | some out => exact absurd hout.2 Bool.false_ne_true
    · exact ⟨hs, rfl⟩

theorem patternCatchUp_ensures (resume : ResumeMap) (s : Store β) (hs : s.sidecar = resume) :
    Ensures (env.patternCatchUp resume) s (fun r s' => s'.sidecar = r) fun _ => True := by
  refine ((attempt_keeps _ s _ hs).mono (fun _ _ h => h) fun _ _ => trivial).bind fun _ s hs => ?_
  refine ((sweep_ensures _ s hs).mono (fun _ _ h => h) fun _ _ => trivial).bind fun r s hs => ?_
  refine ((heal_ensures r s hs.1).mono (fun _ _ h => h) fun _ _ => trivial).bind fun r s hs => ?_
  refine ((frontier_keeps s _ hs).mono (fun _ _ h => h) fun _ _ => trivial).bind fun at_ s hs => ?_
  refine (generations_ensures _ _ _ _ r s hs).bind fun r s hs => ?_
  exact ((attempt_keeps _ s _ hs).mono (fun _ _ h => h) fun _ _ => trivial).bind fun _ _ hs => hs

theorem patternCatchUp_unsaved (resume : ResumeMap) (s : Store β) (hs : s.sidecar = resume)
    (h : env.SavesNothing resume s) :
    Ensures (env.patternCatchUp resume) s (fun r s' => s'.sidecar = r)
      fun s' => s'.sidecar = resume := by
  have hswept : Ensures (do env.attempt .loadDurations; env.sweep resume) s
      (fun r s' => s'.sidecar = r ∧
        (env.fails (.scan .sweep) = true ∨ ¬ env.Stranded s.folder → r = resume))
      fun s' => s'.sidecar = resume := by
    refine (attempt_ensures (Q := fun _ s' => s' = s) (fun _ => rfl) hs).bind fun _ s' hs' => ?_
    subst hs'
    exact sweep_ensures resume s' hs
  have hall := hswept.and h
  unfold patternCatchUp
  rw [← bind_assoc]
  refine (hall.mono (fun _ _ h => h) fun _ h => h.1).bind fun r s₁ ⟨⟨hr, hkept⟩, hquiet, hrest⟩ => ?_
  obtain rfl := hkept hquiet
  have hhealed := (heal_ensures r s₁ hr).and hrest
  by_cases hcovered : env.Covered s₁
  · have hsame := hhealed.and (heal_covered r hcovered)
    refine (hsame.mono (fun _ _ h => h) fun _ h => h.1.1).bind fun r' s₂ hr' => ?_
    obtain ⟨⟨hs₂, -, hnone⟩, rfl⟩ := hr'
    refine (((frontier_keeps s₂ _ hs₂).and hnone).mono (fun _ _ h => h) fun _ h => h.1).bind ?_
    rintro at_ s₃ ⟨hs₃, hfirst⟩
    refine (generations_unsaved _ _ _ r' s₃ hs₃ hfirst).bind fun r'' s₄ hs₄ => ?_
    obtain ⟨hs₄, rfl⟩ := hs₄
    exact (attempt_keeps _ s₄ _ hs₄).bind fun _ _ hs => hs
  · refine Ensures.bind (Q := fun _ _ => False) ?_ fun _ _ h => h.elim
    exact hhealed.mono (fun _ _ h => absurd h.2.1 hcovered) fun _ h => h.1

end Sidecar

end TickEnv

open Lib (Ensures)

/-- The loop's copy of the state is what the sidecar holds. -/
def Synced (at_ : Store β × ResumeMap) : Prop := at_.1.sidecar = at_.2

/-- A tick from a copy in step leaves it in step, if it does not fail or saves nothing. -/
theorem TickEnv.rollTick_synced {env : TickEnv β} {disk : Store β} {resume : ResumeMap}
    (hs : Synced (disk, resume))
    (h : Ensures (env.patternCatchUp resume) disk (fun _ _ => True)
      fun _ => env.SavesNothing resume disk) : Synced (env.rollTick disk resume) := by
  have hok : Ensures (env.patternCatchUp resume) disk (fun r s => s.sidecar = r) fun _ => True :=
    patternCatchUp_ensures resume disk hs
  unfold rollTick
  unfold Ensures at h hok
  cases hrun : (env.patternCatchUp resume).run disk with
  | ok next disk' =>
    rw [hrun] at hok
    exact hok
  | error e disk' =>
    rw [hrun] at h
    have hkept := patternCatchUp_unsaved resume disk hs h
    unfold Ensures at hkept
    rw [hrun] at hkept
    exact hkept

/-- The states a channel's roll ticks go through from what is on disk, when each tick that fails
has made no rewind and completed no generation before. -/
inductive RollsFrom (disk : Store β) : Store β × ResumeMap → Prop
  | start : RollsFrom disk (disk, disk.sidecar)
  | tick {at_ : Store β × ResumeMap} (env : TickEnv β) (h : RollsFrom disk at_)
    (early : Ensures (env.patternCatchUp at_.2) at_.1 (fun _ _ => True)
      fun _ => env.SavesNothing at_.2 at_.1) : RollsFrom disk (env.rollTick at_.1 at_.2)

/-- Every tick starts from the state its sidecar holds, where each tick that fails has made no
rewind and completed no generation before it fails. -/
theorem RollsFrom.synced {disk : Store β} {at_ : Store β × ResumeMap} (h : RollsFrom disk at_) :
    Synced at_ := by
  induction h with
  | start => rfl
  | tick env h early ih => exact env.rollTick_synced ih early

/-- Two clips of an hour in turn, on a channel of two hours ahead. -/
def hourly (fails : Step → Bool) : TickEnv Unit where
  os := plainOs Unit
  grid := sixHours
  fill := plainEnv
  anchor := none
  startup := false
  now := 0
  window := 2 * HOUR
  retention := 7 * DAY
  rollInterval := HOUR
  fails
  generate _ _ resume _ _ :=
    let item := clip (if resume.position % 2 = 0 then "a" else "b") 1
    .ok (⟨[item.1], [item.2], [resume.toProgress], []⟩, fun _ => none,
      { resume with position := resume.position + 1 })

/-- A tick that fails as it writes its first chunk, and the one after it. -/
theorem synced_hourly :
    Synced ((hourly fun _ => false).rollTick
      ((hourly fun step => step = .writeChunk 0 0).rollTick {} {}).1
      ((hourly fun step => step = .writeChunk 0 0).rollTick {} {}).2) := by
  have hstart : RollsFrom ({} : Store Unit) ({}, {}) := .start
  have hfailed := hstart.tick (hourly fun step => step = .writeChunk 0 0) (by decide +kernel)
  exact RollsFrom.synced (hfailed.tick (hourly fun _ => false) (by decide +kernel))

/-- A tick completes the generation of `a` and fails in the next: the next tick starts from before
`a`, and airs it twice. -/
theorem failed_tick_redraws :
    let failed := (hourly fun step => step = .writeChunk 1 0).rollTick {} {}
    let next := (hourly fun _ => false).rollTick failed.1 failed.2
    ¬ Synced failed ∧ failed.1.sidecar.position = 1 ∧ failed.2.position = 0 ∧
      failed.1.ledger.map (·.entryId) = ["a"] ∧ next.1.ledger.map (·.entryId) = ["a", "a"] := by
  unfold Synced
  decide +kernel

end EtvStation
