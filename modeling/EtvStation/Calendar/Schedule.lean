import EtvStation.Resolve.Blocks
import EtvStation.Rotation
import EtvStation.Tz

/-! Which slot a rule's schedules place at an instant, and the instants at which that can change.
A date counts days from 1970-01-01, a clock range minutes from local midnight. -/
namespace EtvStation.Resolve

/-- A range of the local day; one that ends before it starts wraps past midnight. -/
structure ClockRange where
  start : ℕ
  end_ : ℕ
  deriving DecidableEq, Repr

def ClockRange.wraps (r : ClockRange) : Bool := r.end_ < r.start

/-- The month and day of a date, from the days since March 1st of the year 0. -/
def monthDay (date : ℤ) : ℕ × ℕ :=
  let day := date + 719468
  let ofEra := (day % 146097).toNat
  let year := (ofEra - ofEra / 1460 + ofEra / 36524 - ofEra / 146096) / 365
  let ofYear := ofEra - (365 * year + year / 4 - year / 100)
  let month := (5 * ofYear + 2) / 153
  ((month + 2) % 12 + 1, ofYear - (153 * month + 2) / 5 + 1)

inductive DateSpan where
  | annual (from_ to_ : ℕ × ℕ)
  | fixed (from_ to_ : ℤ)
  deriving DecidableEq, Repr

def notAfter (a b : ℕ × ℕ) : Bool := a.1 < b.1 || (a.1 == b.1 && a.2 ≤ b.2)

/-- Both ends count; an annual span that ends before it starts crosses December 31st. -/
def DateSpan.contains (date : ℤ) : DateSpan → Bool
  | .annual from_ to_ =>
    let md := monthDay date
    if notAfter from_ to_ then notAfter from_ md && notAfter md to_
    else notAfter from_ md || notAfter md to_
  | .fixed from_ to_ => from_ ≤ date && date ≤ to_

def weekday (date : ℤ) : ℕ := ((date + 3) % 7).toNat

structure Schedule where
  name : String
  dates : List DateSpan := []
  weekdays : List ℕ := []
  hours : BTreeMap ClockRange String

/-- A dated schedule outranks a weekday one, which outranks one with neither. -/
def Schedule.rank (s : Schedule) : ℕ :=
  if s.dates ≠ [] then 2 else if s.weekdays ≠ [] then 1 else 0

def Schedule.matchesDay (s : Schedule) (date : ℤ) : Bool :=
  (s.dates.isEmpty || s.dates.any (·.contains date)) &&
    (s.weekdays.isEmpty || s.weekdays.contains (weekday date))

def ClockRange.startDay (r : ClockRange) (today yesterday : Bool) (date : ℤ) (minute : ℕ) :
    Option ℤ :=
  if r.wraps then
    if today && r.start ≤ minute then some date
    else if yesterday && minute < r.end_ then some (date - 1)
    else none
  else if today && r.start ≤ minute && minute < r.end_ then some date
  else none

/-- The slot a schedule airs at a minute of a day, the range that matched, and the day it starts
on. -/
def Schedule.hitAt (s : Schedule) (date : ℤ) (minute : ℕ) : Option (String × ClockRange × ℤ) :=
  s.hours.findSome? fun e =>
    (e.1.startDay (s.matchesDay date) (s.matchesDay (date - 1)) date minute).map
      fun day => (e.2, e.1, day)

/-- What the calendar reads of a rule: its schedules and slots, how many any-time blocks stand
before them, and the station's zone. -/
structure SlotRule where
  blocks : ℕ
  slots : BTreeMap String EtvStation.BlockInclude
  schedules : List Schedule
  tz : Zone

namespace SlotRule

variable (rule : SlotRule)

def slotIndex (name : String) : Option ℕ :=
  (rule.slots.findIdx? (·.1 == name)).map (rule.blocks + ·)

/-- The schedules, highest first. -/
def order : List Schedule := rule.schedules.insertionSort fun a b => b.rank ≤ a.rank

def answer (date : ℤ) (minute : ℕ) (s : Schedule) : Option OnAir :=
  (s.hitAt date minute).bind fun (slot, range, startDay) =>
    (rule.slotIndex slot).map fun index =>
      let rotation := ((rule.slots.get slot).map (·.isRotation)).getD false
      .slot slot index
        (if rotation then some (rule.tz.toUtcAssumeLocal startDay (range.start * MINUTE) / SECOND)
        else none)

def onAirAt (date : ℤ) (minute : ℕ) : OnAir :=
  (rule.order.findSome? (rule.answer date minute)).getD .anyTime

/-- The minute the local clock shows, counted from 1970-01-01 00:00. -/
def clockMinute (t : ℤ) : ℤ := rule.tz.toLocal t / MINUTE

def onAir (t : ℤ) : OnAir :=
  rule.onAirAt (rule.clockMinute t / 1440) (rule.clockMinute t % 1440).toNat

/-- The minutes of a day at which the answer can change. -/
def lineMinutes : List ℕ :=
  ((((0 :: rule.order.flatMap fun s => s.hours.flatMap fun e => [e.1.start, e.1.end_]).filter
    (· < 1440)).insertionSort (· ≤ ·))).dedup

/-- The first minute at which the offset differs from `offset`, between `lo` and `hi` after `t`. -/
def gapEnd (z : Zone) (t offset : ℤ) : (fuel : ℕ) → (lo hi : ℤ) → ℤ
  | 0, _, hi => hi
  | fuel + 1, lo, hi =>
    if 1 < hi - lo then
      let mid := (lo + hi) / 2
      if z.offset (t + mid * MINUTE) = offset then gapEnd z t offset fuel mid hi
      else gapEnd z t offset fuel lo mid
    else hi

def lineAt (day : ℤ) (m : ℕ) : ℤ := rule.tz.toUtcAssumeLocal day (m * MINUTE)

/-- The instants of one line: where it resolves to, and, for a line that the clock skips, the first
minute after the gap. -/
def lineInstants (day : ℤ) (m : ℕ) : List ℤ :=
  let t := rule.lineAt day m
  if rule.clockMinute t % 1440 = m then [t]
  else [t, t + gapEnd rule.tz t (rule.tz.offset t) 60 0 60 * MINUTE]

/-- The lines of a day that resolve to before `until_`. -/
def dayLines (until_ day : ℤ) : List ℕ := rule.lineMinutes.filter fun m => rule.lineAt day m < until_

/-- The instants of the days from `day` on, up to the first whose lines are all past. -/
def dayBoundaries (until_ : ℤ) : (fuel : ℕ) → ℤ → List ℤ
  | 0, _ => []
  | fuel + 1, day =>
    let lines := rule.dayLines until_ day
    if lines = [] then []
    else lines.flatMap (rule.lineInstants day) ++ dayBoundaries until_ fuel (day + 1)

/-- The day before the one `from_` is on. -/
def firstDay (from_ : ℤ) : ℤ := rule.clockMinute from_ / 1440 - 1

/-- Every instant in `(from_, until_)` at which what is on air can change: local midnight and the
start and end of each range, on every local day. -/
def boundaries (from_ until_ : ℤ) : List ℤ :=
  (((rule.dayBoundaries until_ (((until_ - from_) / DAY).toNat + 6) (rule.firstDay from_)).filter
    fun t => from_ < t && t < until_).insertionSort (· ≤ ·)).dedup

def calendar (drawn : ℤ → BTreeMap String RotationResume → OnAir × BTreeMap String RotationResume) :
    Calendar := ⟨rule.onAir, drawn⟩

end SlotRule

end EtvStation.Resolve
