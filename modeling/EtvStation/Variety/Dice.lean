import EtvStation.Rotation
import EtvStation.Pattern.Sources

/-! Which seed and which temperature a pool draws with at an instant. A rotating value is cut into
periods, counted from 1970-01-01 00:00 on the local clock, and each period has a value of its
own. Spans are whole seconds. -/
namespace EtvStation

structure SeedRotate where
  rotate : ℕ
  cycle : Option (List UInt64) := none

inductive SeedSpec where
  | fixed (seed : UInt64)
  | rotate (r : SeedRotate)

structure TemperatureRotate where
  rotate : ℕ
  cycle : Option (List ℚ) := none
  between : Option (ℚ × ℚ) := none

inductive TemperatureSpec where
  | fixed (temperature : ℚ)
  | rotate (r : TemperatureRotate)

/-- A new seed each local day: what a channel gets that sets no `seed:`. -/
def defaultSeed : SeedSpec := .rotate ⟨86400, none⟩

def DERIVED_SEED_BASE : UInt64 := 0x5EED0F574710A5C3
def TEMPERATURE_BASE : UInt64 := 0x7E3BE7A70DE51A2B
def WEEK_SECS : ℤ := 7 * 86400
/-- 1970-01-05 00:00, the first Monday after the epoch. -/
def FIRST_MONDAY_SECS : ℤ := 4 * 86400

/-- A pool with what it sets of its own. -/
structure SeededPool extends Pool where
  seed : Option SeedSpec := none
  temperature : Option TemperatureSpec := none

/-- A draw in `[0, 1)`. -/
def unitRat (x : UInt64) : ℚ := (x >>> 11).toNat / 2 ^ 53

/-- `as u64`. -/
def asU64 (p : ℤ) : UInt64 := UInt64.ofNat (p % 2 ^ 64).toNat

namespace Zone

variable (z : Zone)

def localSecs (t : ℤ) : ℤ := t / SECOND + z.offset t

/-- The instant whose wall clock reads `line`: the offset at `near` is a first guess, and is
corrected once. -/
def localToUtc (line near : ℤ) : ℤ :=
  let guess := (line - z.offset near) * SECOND
  (line - z.offset guess) * SECOND

end Zone

def periodAt (localSecs : ℤ) (rotate : ℕ) : ℤ := localSecs / (max rotate 1 : ℕ)

/-- A channel's resolved `seed:` and `temperature:`. -/
structure ChannelVariety where
  seed : Option SeedSpec := none
  temperature : Option TemperatureSpec := none
  channel : String
  tz : Zone

namespace ChannelVariety

variable (v : ChannelVariety)

def channelSalt : UInt64 := fnv1a v.channel

def poolSalt (pool : Option SeededPool) : UInt64 :=
  fnv1a (v.channel ++ "/" ++ (pool.map fun p => p.name).getD "")

/-- The `seed:` that counts for a pool, and its salt. -/
def seedSpec (pool : Option SeededPool) : SeedSpec × UInt64 :=
  match pool.bind (·.seed), v.seed with
  | some s, _ => (s, v.poolSalt pool)
  | none, some s => (s, v.channelSalt)
  | none, none => (defaultSeed, v.channelSalt)

/-- The `temperature:` that counts for a pool, and its salt. -/
def temperatureSpec (pool : Option SeededPool) : Option TemperatureSpec × UInt64 :=
  match pool.bind (·.temperature), v.temperature with
  | some t, _ => (some t, v.poolSalt pool)
  | none, t => (t, v.channelSalt)

def drawSeed (salt : UInt64) (r : SeedRotate) (p : ℤ) : UInt64 :=
  match r.cycle with
  | some list => list.getD (p % list.length).toNat 0
  | none => mixSeed (mixSeed DERIVED_SEED_BASE salt) (asU64 p)

def drawTemperature (salt : UInt64) (r : TemperatureRotate) (p : ℤ) : ℚ :=
  match r.cycle, r.between with
  | some (t :: list), _ => (t :: list).getD (p % (t :: list).length).toNat 0
  | _, some (lo, hi) =>
    lo + (hi - lo) * unitRat (mixSeed (mixSeed TEMPERATURE_BASE salt) (asU64 p))
  -- Refused at load; this keeps a config that got past it at the stable default.
  | _, none => 0

/-- The dice `pool` draws with at `t`: the channel's, where it sets neither field. -/
def dice (t : ℤ) (pool : Option SeededPool) : Dice :=
  let clock := v.tz.localSecs t
  let (seedSpec, seedSalt) := v.seedSpec pool
  let (seed, seedPeriod) :=
    match seedSpec with
    | .fixed n => (n, none)
    | .rotate r =>
      let p := periodAt clock r.rotate
      (drawSeed seedSalt r p, some p)
  let (temperatureSpec, temperatureSalt) := v.temperatureSpec pool
  let (temperature, temperaturePeriod) :=
    match temperatureSpec with
    | none => (0, none)
    | some (.fixed t) => (t, none)
    | some (.rotate r) =>
      let p := periodAt clock r.rotate
      (drawTemperature temperatureSalt r p, some p)
  ⟨seed, temperature, seedPeriod, temperaturePeriod⟩

def seedCadence : SeedSpec → Option ℕ
  | .fixed _ => none
  | .rotate r => some r.rotate

def temperatureCadence : TemperatureSpec → Option ℕ
  | .fixed _ => none
  | .rotate r => some r.rotate

def cadences (pools : List SeededPool) : List ℕ :=
  (seedCadence (v.seed.getD defaultSeed)).toList ++
    pools.filterMap (fun p => p.seed.bind seedCadence) ++
    (v.temperature.bind temperatureCadence).toList ++
    pools.filterMap (fun p => p.temperature.bind temperatureCadence)

/-- A line that the clock skips can resolve to before `after`: step an hour at a time until the
clock has left the period. -/
def stepPast (z : Zone) (after current : ℤ) (rotate : ℕ) : ℕ → ℤ → ℤ
  | 0, t => t
  | fuel + 1, t =>
    if after < t ∧ periodAt (z.localSecs t) rotate ≠ current then t
    else stepPast z after current rotate fuel (t + HOUR)

/-- The clock line that ends the period `after` is in. -/
def endLine (z : Zone) (after : ℤ) (rotate : ℕ) : ℤ :=
  (periodAt (z.localSecs after) rotate + 1) * (max rotate 1 : ℕ)

def rollover (z : Zone) (after : ℤ) (rotate : ℕ) : ℤ :=
  let current := periodAt (z.localSecs after) rotate
  stepPast z after current rotate 48 (z.localToUtc (endLine z after rotate) after)

/-- The first instant after `after` at which a pool's dice or the channel's own change, `none`
when none of them rotates. -/
def nextRollover (after : ℤ) (pools : List SeededPool) : Option ℤ :=
  ((v.cadences pools).map (rollover v.tz after)).min?

end ChannelVariety

namespace Zone

variable (z : Zone)

/-- Whole weeks count from a Monday midnight, any other span from the epoch. -/
def spanAnchor (secs : ℤ) : ℤ := if secs % WEEK_SECS = 0 then FIRST_MONDAY_SECS else 0

def spanLine (span : ℕ) (clock : ℤ) : ℤ :=
  let secs : ℤ := (max span 1 : ℕ)
  spanAnchor secs + (clock - spanAnchor secs) / secs * secs

def spanPeriod (t : ℤ) (span : ℕ) : ℤ × ℤ :=
  let start := spanLine span (z.localSecs t)
  (z.localToUtc start t, z.localToUtc (start + (max span 1 : ℕ)) t)

end Zone

/-- What a channel's variety answers to the walk, given what each pool sets of its own. -/
def ChannelVariety.toVariety (v : ChannelVariety) (own : Pool → SeededPool) : Variety where
  dice t pool := v.dice t (some (own pool))
  spanPeriod := v.tz.spanPeriod

end EtvStation
