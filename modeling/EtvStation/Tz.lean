import EtvStation.Lib.Grid
import Mathlib.Tactic.Linarith
import Mathlib.Tactic.Ring

/-! The chunk grid of a time zone: local-clock lines at multiples of `chunk_hours`, resolved to
UTC instants. Instants and spans are nanoseconds, dates count days, offsets are seconds. -/
namespace EtvStation

def SECOND : ℤ := 1000000000
def HOUR : ℤ := 3600000000000
def DAY : ℤ := 86400000000000

/-- A zone of the database: the offset it names as primary, and the one in force at each UTC
instant. -/
structure Zone where
  primary : ℤ
  offset : ℤ → ℤ
  offset_lt : ∀ t, |offset t| * SECOND < DAY

/-- The offset a table of transitions puts in force: that of the last one at or before `t`. -/
def tableOffset (first : ℤ) (rest : List (ℤ × ℤ)) (t : ℤ) : ℤ :=
  ((rest.filter fun e => e.1 ≤ t).getLast?.map Prod.snd).getD first

namespace Zone

variable (z : Zone)

def shift (t : ℤ) : ℤ := z.offset t * SECOND

/-- `to_timezone`: what the local clock reads at `t`. -/
def toLocal (t : ℤ) : ℤ := t + z.shift t

/-- Resolve a local line through the offset in force at an approximate instant of it. -/
def toUtcAssumeLocal (date time : ℤ) : ℤ :=
  let naive := date * DAY + time
  let approx := naive - z.primary * SECOND
  naive - z.shift approx

end Zone

def localDate (clock : ℤ) : ℤ := clock / DAY

def localHour (clock : ℤ) : ℕ := (clock % DAY / HOUR).toNat

/-- The hour the next chunk starts at, past 23 for the next day's midnight. -/
def nextHour (chunkHours : ℕ) (clock : ℤ) : ℕ :=
  let h := max chunkHours 1 % 256
  (localHour clock / h + 1) * h

namespace Zone

variable (z : Zone)

def localMidnightAtOrBefore (now : ℤ) : ℤ :=
  let date := localDate (z.toLocal now)
  let candidate := z.toUtcAssumeLocal date 0
  if now < candidate then z.toUtcAssumeLocal (date - 1) 0 else candidate

def addChunk (chunkHours : ℕ) (start : ℤ) : ℤ :=
  let clock := z.toLocal start
  if 24 ≤ nextHour chunkHours clock then z.toUtcAssumeLocal (localDate clock + 1) 0
  else z.toUtcAssumeLocal (localDate clock) (nextHour chunkHours clock * HOUR)

/-- The chunk boundary at or before `now`: chunks are added to the local midnight until the
next would be past it. `none` when the fuel runs out first. -/
def chunkBoundaryAtOrBefore (chunkHours : ℕ) (now : ℤ) (fuel : ℕ) : Option ℤ :=
  Lib.walkTo (z.addChunk chunkHours) now fuel (z.localMidnightAtOrBefore now)

/-- The loop ends, and returns `b`. -/
def BoundaryAt (chunkHours : ℕ) (now b : ℤ) : Prop :=
  ∃ fuel, z.chunkBoundaryAtOrBefore chunkHours now fuel = some b

/-- The grid at `t`: the next boundary is later, the loop for `t` ends on the boundary of the
chunk `t` is in, and every instant of that chunk has the same one. -/
structure GridAt (chunkHours : ℕ) (t : ℤ) : Prop where
  advances : t < z.addChunk chunkHours t
  chunk : ∃ b, z.BoundaryAt chunkHours t b ∧ b ≤ t ∧ t < z.addChunk chunkHours b ∧
    ∀ u, b ≤ u → u < z.addChunk chunkHours b → z.BoundaryAt chunkHours u b

end Zone

def nextLine (chunkHours : ℕ) (clock : ℤ) : ℤ :=
  if 24 ≤ nextHour chunkHours clock then (localDate clock + 1) * DAY
  else localDate clock * DAY + nextHour chunkHours clock * HOUR

theorem nextLine_bounds {chunkHours : ℕ} (hlow : 1 ≤ chunkHours) (hhigh : chunkHours ≤ 24)
    (clock : ℤ) : clock < nextLine chunkHours clock ∧
      nextLine chunkHours clock ≤ (localDate clock + 1) * DAY := by
  have hh : max chunkHours 1 % 256 = chunkHours := by omega
  have hhour : localHour clock < nextHour chunkHours clock := by
    unfold nextHour
    rw [hh]
    exact Nat.lt_mul_of_div_lt (Nat.lt_succ_self _) hlow
  unfold nextLine
  simp only [localDate, localHour, DAY, HOUR] at hhour ⊢
  split_ifs with hday <;> omega

namespace Zone

variable (z : Zone)

theorem offset_bounds (t : ℤ) : -86400 < z.offset t ∧ z.offset t < 86400 := by
  have hlt := z.offset_lt t
  rw [show DAY = 86400 * SECOND from rfl] at hlt
  have habs := lt_of_mul_lt_mul_right hlt (by decide)
  exact abs_lt.mp habs

theorem shift_bounds (t : ℤ) : -DAY < z.shift t ∧ z.shift t < DAY := by
  have hbounds := z.offset_bounds t
  simp only [shift, SECOND, DAY]
  omega

/-- How far the offset read for a local line is ahead of the one in force at `t`. -/
def lead (t line : ℤ) : ℤ := z.shift (line - z.primary * SECOND) - z.shift t

theorem addChunk_eq (chunkHours : ℕ) (t : ℤ) : z.addChunk chunkHours t =
    t + (nextLine chunkHours (z.toLocal t) - z.toLocal t -
      z.lead t (nextLine chunkHours (z.toLocal t))) := by
  simp only [addChunk, nextLine]
  split_ifs with hday
  · simp only [toUtcAssumeLocal, lead, toLocal, add_zero]
    ring
  · simp only [toUtcAssumeLocal, lead, toLocal]
    ring

/-- The offsets of a zone keep its chunk grid in order. -/
structure KeepsGrid (chunkHours : ℕ) : Prop where
  /-- Ahead of `t` the offset rises by less than the local time left to the next line. -/
  ahead : ∀ t, z.lead t (nextLine chunkHours (z.toLocal t)) <
    nextLine chunkHours (z.toLocal t) - z.toLocal t
  /-- Behind `t` it falls by no more than the local time since midnight, or the one before. -/
  behind : ∀ t, let date := localDate (z.toLocal t)
    date * DAY - z.toLocal t ≤ z.lead t (date * DAY) ∨
      (date - 1) * DAY - z.toLocal t ≤ z.lead t ((date - 1) * DAY)
  /-- Where the midnight counted from changes, the lines counted from either one meet. -/
  joined : ∀ t, z.localMidnightAtOrBefore (t + 1) ≠ z.localMidnightAtOrBefore t →
    Lib.Joined (z.addChunk chunkHours) (t + 1) (z.localMidnightAtOrBefore t)
      (z.localMidnightAtOrBefore (t + 1))

def fixed (offset : ℤ) (h : |offset| * SECOND < DAY) : Zone := ⟨offset, fun _ => offset, fun _ => h⟩

section Fixed

variable {offset : ℤ} {h : |offset| * SECOND < DAY}

theorem fixed_localMidnight (t : ℤ) : (fixed offset h).localMidnightAtOrBefore t =
    localDate ((fixed offset h).toLocal t) * DAY - offset * SECOND := by
  simp only [localMidnightAtOrBefore, toUtcAssumeLocal, toLocal, shift, fixed, localDate, DAY]
  split_ifs with hlater <;> omega

theorem fixed_addChunk (chunkHours : ℕ) (t : ℤ) : (fixed offset h).addChunk chunkHours t =
    nextLine chunkHours ((fixed offset h).toLocal t) - offset * SECOND := by
  rw [addChunk_eq]
  simp only [lead, toLocal, shift, fixed]
  ring

theorem fixed_keepsGrid {chunkHours : ℕ} (hlow : 1 ≤ chunkHours) (hhigh : chunkHours ≤ 24) :
    (fixed offset h).KeepsGrid chunkHours := by
  have hbounds := nextLine_bounds hlow hhigh
  have hprogress : ∀ t, t < (fixed offset h).addChunk chunkHours t := by
    intro t
    have := (hbounds ((fixed offset h).toLocal t)).1
    rw [fixed_addChunk]
    simp only [toLocal, shift, fixed] at this ⊢
    omega
  refine ⟨fun t => ?_, fun t => Or.inl ?_, fun t hne => ?_⟩
  · have := (hbounds ((fixed offset h).toLocal t)).1
    simp only [lead, shift, fixed] at this ⊢
    omega
  · simp only [lead, shift, toLocal, fixed, localDate, DAY]
    omega
  · set z := fixed offset h with hz
    have hlocal : ∀ u, z.toLocal u = u + offset * SECOND := fun _ => rfl
    have hmid : ∀ u, z.localMidnightAtOrBefore u =
        localDate (u + offset * SECOND) * DAY - offset * SECOND := fixed_localMidnight
    have hadd : ∀ u, z.addChunk chunkHours u =
        nextLine chunkHours (u + offset * SECOND) - offset * SECOND := fixed_addChunk chunkHours
    have hday : t + 1 + offset * SECOND = (localDate (z.toLocal t) + 1) * DAY := by
      simp only [hmid, hlocal, localDate, DAY] at hne ⊢
      omega
    have hmidnight : z.localMidnightAtOrBefore (t + 1) = t + 1 := by
      rw [hmid, hday]
      simp only [localDate, DAY] at hday ⊢
      omega
    obtain ⟨b, hb⟩ := Lib.exists_lands hprogress t (z.localMidnightAtOrBefore t)
    obtain ⟨⟨n, hn⟩, hlt, hle⟩ := hb.bounds
    have hstart : z.localMidnightAtOrBefore t ≤ b := hn ▸ Lib.le_iterate hprogress n _
    have hnext : z.addChunk chunkHours b = t + 1 := by
      have hline := (hbounds (z.toLocal b)).2
      rw [hadd] at hlt ⊢
      rw [hmid] at hstart hle
      simp only [hlocal, localDate, DAY] at hline hday hstart hle
      omega
    refine ⟨n + 1, 0, ?_, ?_, ?_⟩
    · rw [Function.iterate_succ_apply', hn, hnext, hmidnight, Function.iterate_zero, id]
    · rw [Function.iterate_succ_apply', hn, hnext]
    · rw [Function.iterate_succ_apply', hn, hnext]
      exact hprogress _

end Fixed

end Zone

/-- São Paulo at its last start of summer time, 2018-11-04T03:00Z: the clock goes from 00:00 to
01:00, and the primary offset is the local mean time. -/
def saoPaulo : Zone where
  primary := -11188
  offset := tableOffset (-10800) [(1541300400000000000, -7200)]
  offset_lt t := by
    simp only [tableOffset, List.filter]
    split <;> decide

end EtvStation
