import EtvStation.Generation
import EtvStation.Resume
import EtvStation.Lib.Effect

/-! What a channel has on disk, and how the catch-up repairs it before it extends the window: the
sweep of files the window cannot reach, and the wipe from a hole in what is covered. -/
namespace EtvStation

open Bumper

variable {β : Type}

/-- What a channel has on disk: its chunk files, its rows of the play history, its sidecar. -/
structure Store (β : Type) where
  folder : Folder β := []
  ledger : List PlayRecord := []
  sidecar : ResumeMap := {}
  deriving DecidableEq

/-- The parts of a catch-up that touch the stores. -/
inductive Part where
  | sweep
  | gap
  | floor
  | heal
  | frontier
  | generation (n : ℕ)
  deriving DecidableEq, Repr

/-- The steps of a catch-up that the outside may fail. -/
inductive Step where
  | loadDurations
  | scan (part : Part)
  | rewrite (name : ℤ × ℤ)
  | surviving (part : Part)
  | truncate (part : Part)
  | save (part : Part)
  | account
  | writeChunk (n : ℕ) (chunkStart : ℤ)
  | appendOverlay (n : ℕ)
  | record (n : ℕ)
  | saveDurations
  deriving DecidableEq, Repr

inductive Fault where
  | io (step : Step)
  | remove (name : ℤ × ℤ)
  | corrupt (name : ℤ × ℤ)
  | generate (message : String)
  deriving DecidableEq, Repr

/-- What a catch-up finds outside the stores: the clock and the channel's settings, which of its
steps fail, and what resolving and probing a generation comes to. -/
structure TickEnv (β : Type) where
  os : Os β
  grid : ChunkGrid
  fill : FillEnv β
  anchor : Option ℤ
  startup : Bool
  now : ℤ
  window : ℤ
  retention : ℤ
  rollInterval : ℤ
  fails : Step → Bool
  generate : ℕ → List PlayRecord → ResumeMap → ℤ → ℤ →
    Except String (Laid β × (String → Option String) × ResumeMap)

/-- The furthest instant a folder reaches: only the last file's items are read, as only they can
run past its name. -/
def highestFinish (files : Folder β) : Option ℤ :=
  files.getLast?.map fun last =>
    let items := ((last.items.getD []).map (·.finish)).max?
    let lastFinish := max last.finish (items.getD last.finish)
    max ((files.dropLast.map (·.finish)).max?.getD last.finish) lastFinish

/-- A folder reaches no further than its names and items. -/
theorem highestFinish_le (os : Os β) {folder : Folder β} {cut : ℤ}
    (h : ∀ f ∈ folder, f.finish ≤ cut ∧ ∀ a ∈ f.items.getD [], a.finish ≤ cut) :
    ∀ t, highestFinish (scanOutputFolder os folder) = some t → t ≤ cut := by
  intro t ht
  obtain ⟨last, hlast, rfl⟩ := Option.map_eq_some_iff.mp ht
  obtain ⟨hname, hitems⟩ := h last ((mem_scanOutputFolder os).mp (List.mem_of_getLast? hlast))
  refine max_le ?_ (max_le hname ?_)
  · cases hmax : ((scanOutputFolder os folder).dropLast.map (·.finish)).max? with
    | none => exact hname
    | some m =>
      obtain ⟨f, hf, rfl⟩ := List.mem_map.mp (List.max?_mem hmax)
      exact (h f ((mem_scanOutputFolder os).mp (List.mem_of_mem_dropLast hf))).1
  · cases hmax : ((last.items.getD []).map (·.finish)).max? with
    | none => exact hname
    | some m =>
      obtain ⟨a, ha, rfl⟩ := List.mem_map.mp (List.max?_mem hmax)
      exact hitems a ha

/-- The first instant no generation can open a chunk at. -/
def unreachableAfter (grid : ChunkGrid) (target : ℤ) : ℤ :=
  grid.next (grid.next (grid.boundary target))

structure SweepCounts where
  elapsed : ℕ
  unreachable : ℕ
  deriving DecidableEq, Repr

/-- Remove the files that fell off either end of the window, as far as they can be. -/
def sweepWindow (os : Os β) (folder : Folder β) (cutoff unreachable : ℤ) :
    Folder β × SweepCounts :=
  let gone := (scanOutputFolder os folder).filter fun f =>
    (f.finish < cutoff ∨ f.start ≥ unreachable) ∧ os.removes f
  (folder.filter fun f => f.name ∉ gone.map (·.name),
    ⟨gone.countP fun f => f.finish < cutoff, gone.countP fun f => ¬ f.finish < cutoff⟩)

/-- The first of the instants up to `horizon` that no span covers, while a later one follows. -/
def holeIn (horizon : ℤ) : ℤ → List (ℤ × ℤ) → Option ℤ
  | _, [] => none
  | coveredTo, (start, finish) :: spans =>
    if start > coveredTo then some coveredTo
    else if max coveredTo finish ≥ horizon then none
    else holeIn horizon (max coveredTo finish) spans

def ChunkFile.read (f : ChunkFile β) : Except Fault (List (PlayoutItem β)) :=
  match f.items with
  | some items => .ok items
  | none => .error (.corrupt f.name)

/-- The earliest instant in `[now, horizon)` no item covers, when a later one is covered. -/
def firstCoverageGap (files : Folder β) (now horizon : ℤ) : Except Fault (Option ℤ) := do
  if horizon ≤ now then return none
  let near := files.filter fun f => ¬ (f.finish ≤ now ∨ f.start ≥ horizon)
  let items ← near.mapM ChunkFile.read
  let spans := (items.flatten.filter fun i => i.finish > now ∧ i.start < horizon).map
    fun i => (i.start, i.finish)
  return holeIn horizon now (spans.insertionSort fun a b => a.1 ≤ b.1)

namespace TickEnv

variable (env : TickEnv β)

def target : ℤ := env.now + env.window

/-- How far ahead a hole is looked for: the whole window at startup, two intervals on a roll. -/
def healHorizon : ℤ := if env.startup then env.target else env.now + 2 * env.rollInterval

def attempt (step : Step) : EStateM Fault (Store β) Unit :=
  if env.fails step then throw (.io step) else pure ()

def scan (part : Part) : EStateM Fault (Store β) (Folder β) := do
  env.attempt (.scan part)
  return scanOutputFolder env.os (← get).folder

def lift {α : Type} (x : Except Fault α) : EStateM Fault (Store β) α :=
  match x with
  | .ok a => pure a
  | .error e => throw e

def setFolder (f : Folder β → Folder β) : EStateM Fault (Store β) Unit :=
  modifyThe (Store β) fun s => { s with folder := f s.folder }

def removeFile (f : ChunkFile β) : EStateM Fault (Store β) Unit :=
  if env.os.removes f then setFolder fun folder => folder.filter fun g => g.name ≠ f.name
  else throw (.remove f.name)

/-- Rewrite a chunk file to hold only what finishes by `cut`, under a name that says so. -/
def truncatePlayoutAt (cut : ℤ) (f : ChunkFile β) : EStateM Fault (Store β) Unit := do
  let items ← lift f.read
  let kept := items.filter fun i => i.finish ≤ cut
  if kept.length = items.length then pure ()
  else match (kept.map (·.finish)).max? with
    | none => env.removeFile f
    | some finish => do
      env.attempt (.rewrite f.name)
      setFolder (writeFile · ⟨f.start, finish, some kept⟩)
      if finish ≠ f.finish then env.removeFile f

/-- Delete the files that begin at or after `from_` and cut the ones that hold it. -/
def wipePlayoutFrom (from_ : ℤ) : EStateM Fault (Store β) Unit := do
  let files ← env.scan .heal
  (files.filter fun f => f.start ≥ from_).forM env.removeFile
  (files.filter fun f => f.start < from_ ∧ f.finish > from_).forM (env.truncatePlayoutAt from_)

/-- Rewind the state and cut the ledger to where what was wiped left the schedule ending. -/
def rewindToSurviving (part : Part) (resume : ResumeMap) (wipedFrom : ℤ) :
    EStateM Fault (Store β) ResumeMap := do
  env.attempt (.surviving part)
  let files := scanOutputFolder env.os (← get).folder
  let frontier := max ((highestFinish files).getD wipedFrom) wipedFrom
  let rewound := match resume.rewindTo frontier with
    | (restored, some _) => restored
    | (_, none) => resume.forgetRotationDrawsFrom frontier
  env.attempt (.truncate part)
  modifyThe (Store β) fun s => { s with ledger := s.ledger.filter fun r => r.start < frontier }
  env.attempt (.save part)
  modifyThe (Store β) fun s => { s with sidecar := rewound }
  return rewound

/-- Where a wipe at `from_` may start: past the item laid across it. -/
def regenFloor (from_ : ℤ) : EStateM Fault (Store β) ℤ := do
  let files ← env.scan .floor
  match (files.filter fun f => f.start < from_).getLast? with
  | none => return from_
  | some preceding =>
    let items ← lift preceding.read
    return max ((items.getLast?.map (·.finish)).getD from_) from_

/-- A file of the folder begins beyond anything the window can reach, and goes. -/
def Stranded (folder : Folder β) : Prop :=
  0 < (sweepWindow env.os folder (env.now - env.retention)
    (unreachableAfter env.grid env.target)).2.unreachable

instance (folder : Folder β) : Decidable (env.Stranded folder) :=
  inferInstanceAs (Decidable (_ < _))

def sweep (resume : ResumeMap) : EStateM Fault (Store β) ResumeMap := do
  -- a folder that cannot be listed is left as it is
  if env.fails (.scan .sweep) then return resume
  let folder := (← get).folder
  setFolder fun folder => (sweepWindow env.os folder (env.now - env.retention)
    (unreachableAfter env.grid env.target)).1
  if env.Stranded folder then
    env.rewindToSurviving .sweep resume (unreachableAfter env.grid env.target)
  else return resume

def coverageGap : EStateM Fault (Store β) (Option ℤ) := do
  if env.healHorizon ≤ env.now then return none
  let files ← env.scan .gap
  lift (firstCoverageGap files env.now env.healHorizon)

def heal (resume : ResumeMap) : EStateM Fault (Store β) ResumeMap := do
  match ← env.coverageGap with
  | none => return resume
  | some gap =>
    let regenFrom ← env.regenFloor (env.grid.boundary gap)
    env.wipePlayoutFrom regenFrom
    env.rewindToSurviving .heal resume regenFrom

end TickEnv

end EtvStation
