import EtvStation.Config
import Mathlib.Algebra.Order.Ring.Rat

/-! Keyed rolls: every random decision hashes its own coordinates, so a roll never moves
because another step was added or skipped. -/
namespace EtvStation

structure RollKey where
  seed : UInt64
  cycle : UInt64
  step : UInt64
  deriving DecidableEq, Repr

def splitmix64 (state : UInt64) : UInt64 :=
  let z := state + 0x9E3779B97F4A7C15
  let z := (z ^^^ (z >>> 30)) * 0xBF58476D1CE4E5B9
  let z := (z ^^^ (z >>> 27)) * 0x94D049BB133111EB
  z ^^^ (z >>> 31)

def RollKey.u64At (k : RollKey) (nonce : UInt64) : UInt64 :=
  splitmix64 (k.seed * 0x9E3779B97F4A7C15 + k.cycle * 0xBF58476D1CE4E5B9 +
    k.step * 0x94D049BB133111EB + nonce * 0xD6E8FEB86659FD93)

/-- A roll in `[0, 1)`, on the 53 bits an `f64` holds exactly. -/
def RollKey.unitAt (k : RollKey) (nonce : UInt64) : ℚ :=
  (k.u64At nonce >>> 11).toNat / 2 ^ 53

def RANDOM_REROLLS : ℕ := 8

def REROLL_STRIDE : UInt64 := (1 : UInt64) <<< 32

def FROM_STRIDE : UInt64 := (1 : UInt64) <<< 48

def TAKE_STRIDE : UInt64 := (1 : UInt64) <<< 56

/-- The nonce of a step's `chance`, `u64::MAX`. -/
def CHANCE_NONCE : UInt64 := 0xFFFFFFFFFFFFFFFF

inductive Draw where
  | count (n : ℕ)
  | all
  deriving DecidableEq, Repr

/-- The slots of a `rotate: slot` visit; `all` is refused there at load. -/
def Draw.slots : Draw → ℕ
  | .count n => n
  | .all => 1

/-- A range is decided once per visit, from the visit's roll. -/
def resolveTake (take : Take) (roll : RollKey) : Draw :=
  match take with
  | .range min max =>
    .count (min + (roll.u64At TAKE_STRIDE).toNat % (max - min + 1))
  | .count n => .count n
  | .all => .all

/-- Whether a step's `chance` turns this visit away. -/
def PatternStep.isSkipped (step : PatternStep) (roll : RollKey) : Bool :=
  step.chance < 1 && roll.unitAt CHANCE_NONCE ≥ step.chance

theorem resolveTake_range_bounds {min max : ℕ} (h : min ≤ max) (roll : RollKey) :
    ∃ n, resolveTake (.range min max) roll = .count n ∧ min ≤ n ∧ n ≤ max := by
  refine ⟨_, rfl, Nat.le_add_right _ _, ?_⟩
  have hlt := Nat.mod_lt (roll.u64At TAKE_STRIDE).toNat (show 0 < max - min + 1 by omega)
  omega

theorem isSkipped_of_one_le {step : PatternStep} (h : 1 ≤ step.chance) (roll : RollKey) :
    step.isSkipped roll = false := by
  simp [PatternStep.isSkipped, not_lt.mpr h]

end EtvStation
