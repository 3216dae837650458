import EtvStation.Config
import Mathlib.Data.Finset.Basic
import Mathlib.Data.List.DropRight

/-! The `.resume` sidecar: whose turn each pool's rotation is on, and the checkpoints a rewind
restores. Where a series left off is the ledger's to say, not the sidecar's. -/
namespace EtvStation

structure Hold where
  series : String
  title : Option String := none
  periodStart : ℤ
  periodEnd : ℤ
  deriving DecidableEq, Repr

/-- One pool's state. `lap` and `drawn` are written sorted and read back as sets. -/
structure PoolResume where
  next : Option String := none
  cycle : ℕ := 0
  step : ℕ := 0
  done : ℕ := 0
  pattern : Option String := none
  list : Option String := none
  lap : Finset String := ∅
  drawn : Finset EntryId := ∅
  hold : Option Hold := none
  deriving DecidableEq

structure RotationDraw where
  member : String
  at_ : ℤ
  deriving DecidableEq, Repr

structure RotationResume where
  cycle : ℕ := 0
  drawn : List String := []
  recent : List RotationDraw := []
  deriving DecidableEq, Repr

/-- A plugin pool's list as ranked for one period, with the take each record its picks
carried. -/
structure FrozenList where
  key : String
  ids : List EntryId
  extras : BTreeMap EntryId (Option ℕ) := []
  deriving DecidableEq, Repr

/-- The state a rewind restores: everything a checkpoint holds but its instant. -/
structure Progress where
  pools : BTreeMap String PoolResume := []
  position : ℕ := 0
  slotPositions : BTreeMap String ℕ := []
  rotations : BTreeMap String RotationResume := []
  deriving DecidableEq

structure Checkpoint extends Progress where
  start : ℤ
  deriving DecidableEq

structure ResumeMap extends Progress where
  checkpoints : List Checkpoint := []
  configId : Option String := none
  lists : BTreeMap String (List FrozenList) := []
  deriving DecidableEq

def ResumeMap.pool (m : ResumeMap) (name : String) : Option PoolResume := m.pools.get name

/-- Record the state entering a generation that begins at `start`. -/
def ResumeMap.checkpoint (m : ResumeMap) (start : ℤ) : ResumeMap :=
  { m with checkpoints := m.checkpoints ++ [{ m.toProgress with start }] }

/-- Record the state at an item boundary, skipped when it is the latest checkpoint's. -/
def ResumeMap.checkpointAt (m : ResumeMap) (start : ℤ) (progress : Progress) : ResumeMap :=
  match m.checkpoints.getLast? with
  | some last =>
    if last.start ≥ start ∨ last.toProgress = progress then m
    else { m with checkpoints := m.checkpoints ++ [{ progress with start }] }
  | none => { m with checkpoints := m.checkpoints ++ [{ progress with start }] }

/-- Drop the boundaries that have already aired. -/
def ResumeMap.pruneElapsed (m : ResumeMap) (now : ℤ) : ResumeMap :=
  { m with checkpoints := m.checkpoints.filter fun c => c.start > now }

/-- Whether the state or a checkpoint still names `pool`'s list `key`. -/
def ResumeMap.wantsList (m : ResumeMap) (pool key : String) : Bool :=
  (m.pools :: m.checkpoints.map (·.pools)).any fun pools =>
    pools.any fun (name, p) => name == pool && p.list == some key

def ResumeMap.pruneLists (m : ResumeMap) : ResumeMap :=
  { m with
    lists := (m.lists.map fun (name, kept) =>
      (name, kept.filter fun l => m.wantsList name l.key)).filter fun (_, kept) =>
        !kept.isEmpty }

/-- Take a generation's end state, keep the checkpoint trail, prune as of `now`. -/
def ResumeMap.adopt (m next : ResumeMap) (now : ℤ) : ResumeMap :=
  ({ next with checkpoints := m.checkpoints, configId := m.configId }.pruneElapsed now).pruneLists

def RotationResume.forgetFrom (r : RotationResume) (instant : ℤ) : RotationResume :=
  let gone := r.recent.reverse.takeWhile fun d => d.at_ ≥ instant
  { r with
    recent := r.recent.rdropWhile fun d => d.at_ ≥ instant
    drawn := r.drawn.filter fun m => !(gone.map (·.member)).contains m }

def ResumeMap.forgetRotationDrawsFrom (m : ResumeMap) (instant : ℤ) : ResumeMap :=
  { m with rotations := m.rotations.mapValues fun r => r.forgetFrom instant }

/-- Restore the latest checkpoint at or before `instant` and drop it and every later one. -/
def ResumeMap.rewindTo (m : ResumeMap) (instant : ℤ) : ResumeMap × Option ℤ :=
  match (m.checkpoints.rdropWhile fun c => c.start > instant).getLast? with
  | none => (m, none)
  | some cp =>
    ({ m with
      toProgress := cp.toProgress
      checkpoints := (m.checkpoints.rdropWhile fun c => c.start > instant).dropLast },
      some cp.start)

/-- What one generation is handed about where the channel stands. -/
structure GenerationState where
  resume : ResumeMap := {}
  cursor : BTreeMap String EntryId := []
  globalCursor : BTreeMap String EntryId := []
  tail : List EntryId := []

end EtvStation
