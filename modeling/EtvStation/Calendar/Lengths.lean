import EtvStation.Tz

/-! Chunk lengths of any size: `add_chunk` down to what it panics on, and the lengths whose grid is
the one they name. -/
namespace EtvStation

/-- `Time::from_hms` on a whole hour. -/
def timeFromHour (hour : ℕ) : Option ℤ := if hour < 24 then some (hour * HOUR) else none

namespace Zone

variable (z : Zone)

/-- `addChunk`, none where it panics: the length is cast to eight bits before it divides. -/
def addChunkChecked (chunkHours : ℕ) (start : ℤ) : Option ℤ :=
  let clock := z.toLocal start
  if max chunkHours 1 % 256 = 0 then none
  else if 24 ≤ nextHour chunkHours clock then
    some (z.toUtcAssumeLocal (localDate clock + 1) 0)
  else
    (timeFromHour (nextHour chunkHours clock % 256)).map fun target =>
      z.toUtcAssumeLocal (localDate clock) target

/-- The loop of `chunkBoundaryAtOrBefore`, none where a chunk cannot be added as well. -/
def boundaryLoop (chunkHours : ℕ) (now : ℤ) : (fuel : ℕ) → ℤ → Option ℤ
  | 0, _ => none
  | fuel + 1, boundary => do
    let next ← z.addChunkChecked chunkHours boundary
    if now < next then some boundary else boundaryLoop chunkHours now fuel next

/-- The loop for `now` runs to its end, and returns `b`. -/
def BoundaryRuns (chunkHours : ℕ) (now b : ℤ) : Prop :=
  ∃ fuel, z.boundaryLoop chunkHours now fuel (z.localMidnightAtOrBefore now) = some b

/-- A chunk begins at `b`. -/
def ChunkBegins (chunkHours : ℕ) (b : ℤ) : Prop := z.BoundaryRuns chunkHours b b

/-- The grid of `chunkHours` on the local day of `t`, as the length names it. -/
structure ChunksOf (chunkHours : ℕ) (t : ℤ) : Prop where
  advances : ∃ next, z.addChunkChecked chunkHours t = some next ∧ t < next
  runs : ∃ b, z.BoundaryRuns chunkHours t b ∧ b ≤ t
  lines : ∀ b, localDate (z.toLocal b) = localDate (z.toLocal t) →
    (z.ChunkBegins chunkHours b ↔
      ∃ k : ℕ, k * chunkHours < 24 ∧ b = z.localMidnightAtOrBefore t + k * chunkHours * HOUR)
  daily : 24 ≤ chunkHours → z.addChunkChecked chunkHours (z.localMidnightAtOrBefore t) =
    some (z.localMidnightAtOrBefore t + DAY)

variable {z} {chunkHours : ℕ}

/-- Short of a divisor of zero nothing panics. -/
theorem addChunkChecked_eq (hzero : max chunkHours 1 % 256 ≠ 0) (t : ℤ) :
    z.addChunkChecked chunkHours t = some (z.addChunk chunkHours t) := by
  simp only [addChunkChecked, addChunk, if_neg hzero]
  by_cases hday : 24 ≤ nextHour chunkHours (z.toLocal t)
  · rw [if_pos hday, if_pos hday]
  · have hhour : nextHour chunkHours (z.toLocal t) < 24 := not_le.mp hday
    rw [if_neg hday, if_neg hday, Nat.mod_eq_of_lt (hhour.trans (by decide : 24 < 256)),
      timeFromHour, if_pos hhour, Option.map_some]

theorem boundaryLoop_eq (hzero : max chunkHours 1 % 256 ≠ 0) (now boundary : ℤ) (fuel : ℕ) :
    z.boundaryLoop chunkHours now fuel boundary =
      Lib.walkTo (z.addChunk chunkHours) now fuel boundary := by
  induction fuel generalizing boundary with
  | zero => rfl
  | succ fuel ih =>
    simp only [boundaryLoop, Lib.walkTo, addChunkChecked_eq hzero, Option.bind_eq_bind,
      Option.bind_some, ih]

theorem boundaryRuns_iff (hzero : max chunkHours 1 % 256 ≠ 0) (now b : ℤ) :
    z.BoundaryRuns chunkHours now b ↔
      Lib.Lands (z.addChunk chunkHours) now (z.localMidnightAtOrBefore now) b := by
  simp only [BoundaryRuns, Lib.Lands, boundaryLoop_eq hzero]

/-- What the cast makes of a length: past a day every length is a day. -/
theorem addChunkChecked_cast (hcast : chunkHours % 256 ≠ 0) (t : ℤ) :
    z.addChunkChecked chunkHours t = z.addChunkChecked (min (chunkHours % 256) 24) t := by
  have hmax : max chunkHours 1 % 256 = chunkHours % 256 := by omega
  by_cases hday : chunkHours % 256 < 24
  · have hsame : max (chunkHours % 256) 1 % 256 = chunkHours % 256 := by omega
    rw [min_eq_left hday.le]
    simp only [addChunkChecked, nextHour, hmax, hsame]
  · have hhour : localHour (z.toLocal t) < 24 := by
      simp only [localHour, DAY, HOUR]
      omega
    have hlong : 24 ≤ nextHour chunkHours (z.toLocal t) := by
      simp only [nextHour, hmax, Nat.div_eq_of_lt (hhour.trans_le (not_lt.mp hday))]
      omega
    have hday' : 24 ≤ nextHour 24 (z.toLocal t) := by
      simp only [nextHour, show max 24 1 % 256 = 24 from rfl]
      omega
    rw [min_eq_right (not_lt.mp hday)]
    simp only [addChunkChecked, if_pos hlong, if_pos hday', hmax, if_neg hcast]
    rfl

theorem boundaryRuns_cast (hcast : chunkHours % 256 ≠ 0) (now b : ℤ) :
    z.BoundaryRuns chunkHours now b ↔ z.BoundaryRuns (min (chunkHours % 256) 24) now b := by
  have hloop : ∀ fuel boundary, z.boundaryLoop chunkHours now fuel boundary =
      z.boundaryLoop (min (chunkHours % 256) 24) now fuel boundary := by
    intro fuel
    induction fuel with
    | zero => exact fun _ => rfl
    | succ fuel ih =>
      intro boundary
      simp only [boundaryLoop, addChunkChecked_cast hcast, ih]
  simp only [BoundaryRuns, hloop]

section Fixed

variable {offset : ℤ} {h : |offset| * SECOND < DAY}

/-- A chunk added on a line of the day leads to the next line of it, or to the next midnight. -/
theorem fixed_addChunk_line (hlow : 1 ≤ chunkHours) (hhigh : chunkHours ≤ 24) (date : ℤ) {k : ℕ}
    (hk : k * chunkHours < 24) :
    (fixed offset h).addChunk chunkHours (date * DAY + k * chunkHours * HOUR - offset * SECOND) =
      if 24 ≤ (k + 1) * chunkHours then (date + 1) * DAY - offset * SECOND
      else date * DAY + ↑(k + 1) * chunkHours * HOUR - offset * SECOND := by
  have hclock : (fixed offset h).toLocal (date * DAY + k * chunkHours * HOUR - offset * SECOND) =
      date * DAY + ↑(k * chunkHours) * HOUR := by
    simp only [toLocal, shift, fixed]
    push_cast
    ring
  have hdate : localDate (date * DAY + ↑(k * chunkHours) * HOUR) = date := by
    simp only [localDate, DAY, HOUR]
    omega
  have hhour : localHour (date * DAY + ↑(k * chunkHours) * HOUR) = k * chunkHours := by
    simp only [localHour, DAY, HOUR]
    omega
  have hnext : nextHour chunkHours (date * DAY + ↑(k * chunkHours) * HOUR) =
      (k + 1) * chunkHours := by
    have hcast : max chunkHours 1 % 256 = chunkHours := by omega
    simp only [nextHour, hhour, hcast, Nat.mul_div_cancel _ (show 0 < chunkHours by omega)]
  rw [fixed_addChunk, hclock, nextLine, hnext, hdate]
  split_ifs
  · rfl
  · push_cast
    ring

/-- The lines walked from a midnight, up to the next. -/
theorem fixed_iterate (hlow : 1 ≤ chunkHours) (hhigh : chunkHours ≤ 24) (date : ℤ) {k : ℕ}
    (hk : k * chunkHours < 24) :
    ((fixed offset h).addChunk chunkHours)^[k] (date * DAY - offset * SECOND) =
      date * DAY + k * chunkHours * HOUR - offset * SECOND := by
  induction k with
  | zero => simp
  | succ k ih =>
    have hbefore : k * chunkHours < 24 := (Nat.mul_le_mul_right _ k.le_succ).trans_lt hk
    rw [Function.iterate_succ_apply', ih hbefore, fixed_addChunk_line hlow hhigh date hbefore,
      if_neg (not_le.mpr hk)]

theorem fixed_midnight (t : ℤ) : (fixed offset h).localMidnightAtOrBefore t ≤ t ∧
    t < (fixed offset h).localMidnightAtOrBefore t + DAY := by
  rw [fixed_localMidnight]
  simp only [toLocal, shift, fixed, localDate, DAY]
  omega

theorem fixed_advances (hlow : 1 ≤ chunkHours) (hhigh : chunkHours ≤ 24) (t : ℤ) :
    t < (fixed offset h).addChunk chunkHours t := by
  have hline := (nextLine_bounds hlow hhigh ((fixed offset h).toLocal t)).1
  rw [fixed_addChunk]
  simp only [toLocal, shift, fixed] at hline ⊢
  omega

/-- The chunks of a day begin on its midnight and the multiples of the length below it. -/
theorem fixed_lands (hlow : 1 ≤ chunkHours) (hhigh : chunkHours ≤ 24) (b : ℤ) :
    Lib.Lands ((fixed offset h).addChunk chunkHours) b
        ((fixed offset h).localMidnightAtOrBefore b) b ↔
      ∃ k : ℕ, k * chunkHours < 24 ∧
        b = (fixed offset h).localMidnightAtOrBefore b + k * chunkHours * HOUR := by
  have hadvances := fun t => fixed_advances (h := h) hlow hhigh t
  obtain ⟨hle, hlt⟩ := fixed_midnight (h := h) b
  rw [fixed_localMidnight] at hle hlt ⊢
  set date := localDate ((fixed offset h).toLocal b) with hdate
  constructor
  · intro hlands
    obtain ⟨⟨n, hn⟩, -, -⟩ := hlands.bounds
    -- no line of the walk lies on another day
    have hinside : ∀ n : ℕ, ((fixed offset h).addChunk chunkHours)^[n]
        (date * DAY - offset * SECOND) ≤ b → n * chunkHours < 24 := by
      intro n
      induction n with
      | zero => exact fun _ => by omega
      | succ n ih =>
        intro hn
        rw [Function.iterate_succ_apply'] at hn
        have hbefore := ih ((hadvances _).le.trans hn)
        rw [fixed_iterate hlow hhigh date hbefore,
          fixed_addChunk_line hlow hhigh date hbefore] at hn
        by_contra hover
        rw [if_pos (not_lt.mp hover)] at hn
        simp only [DAY] at hn hlt
        omega
    have hk := hinside n hn.le
    refine ⟨n, hk, ?_⟩
    rw [← hn, fixed_iterate hlow hhigh date hk]
    ring
  · rintro ⟨k, hk, hb⟩
    have hline : ((fixed offset h).addChunk chunkHours)^[k] (date * DAY - offset * SECOND) = b := by
      rw [fixed_iterate hlow hhigh date hk, hb]
      ring
    refine (Lib.lands_iterate hadvances k hline.le).mpr ?_
    rw [hline]
    exact Lib.lands_here (hadvances b)

theorem fixed_chunkBegins (hcast : chunkHours % 256 ≠ 0) (b : ℤ) :
    (fixed offset h).ChunkBegins chunkHours b ↔ ∃ k : ℕ, k * min (chunkHours % 256) 24 < 24 ∧
      b = (fixed offset h).localMidnightAtOrBefore b + k * ↑(min (chunkHours % 256) 24) * HOUR := by
  rw [ChunkBegins, boundaryRuns_cast hcast, boundaryRuns_iff (by omega)]
  exact fixed_lands (by omega) (by omega) b

theorem fixed_sameMidnight {b t : ℤ}
    (hday : localDate ((fixed offset h).toLocal b) = localDate ((fixed offset h).toLocal t)) :
    (fixed offset h).localMidnightAtOrBefore b = (fixed offset h).localMidnightAtOrBefore t := by
  rw [fixed_localMidnight, fixed_localMidnight, hday]

theorem fixed_sameDay (t : ℤ) {hour : ℕ} (hhour : hour < 24) :
    localDate ((fixed offset h).toLocal
      ((fixed offset h).localMidnightAtOrBefore t + hour * HOUR)) =
      localDate ((fixed offset h).toLocal t) := by
  rw [fixed_localMidnight]
  simp only [toLocal, shift, fixed, localDate, DAY, HOUR]
  omega

/-- A length other than zero makes the grid it names exactly when its last eight bits are the
length, or are a day or more as it is. -/
theorem fixed_chunksOf_iff (hvalid : chunkHours ≠ 0) (t : ℤ) :
    (fixed offset h).ChunksOf chunkHours t ↔ chunkHours < 24 ∨ 24 ≤ chunkHours % 256 := by
  constructor
  · intro hchunks
    by_contra hnot
    obtain ⟨next, hnext, -⟩ := hchunks.advances
    have hcast : chunkHours % 256 ≠ 0 := by
      intro hzero
      have hmax : max chunkHours 1 % 256 = 0 := by omega
      simp only [addChunkChecked, if_pos hmax] at hnext
      cases hnext
    -- the line one cast length after midnight is none that `chunkHours` names
    have hday := fixed_sameDay (h := h) t (show chunkHours % 256 < 24 by omega)
    have hbegins := (fixed_chunkBegins (h := h) hcast _).mpr ⟨1, by omega, by
      rw [fixed_sameMidnight hday, min_eq_left (by omega : chunkHours % 256 ≤ 24)]
      push_cast
      ring⟩
    obtain ⟨k, hk, hline⟩ := (hchunks.lines _ hday).mp hbegins
    have hnone : k = 0 := by
      by_contra hpos
      have := Nat.le_mul_of_pos_left chunkHours (Nat.pos_of_ne_zero hpos)
      omega
    rw [hnone] at hline
    simp only [HOUR] at hline
    omega
  · intro hlength
    have hcast : chunkHours % 256 ≠ 0 := by omega
    have hlow : 1 ≤ min (chunkHours % 256) 24 := by omega
    have hhigh : min (chunkHours % 256) 24 ≤ 24 := min_le_right _ _
    have hnonzero : max (min (chunkHours % 256) 24) 1 % 256 ≠ 0 := by omega
    refine ⟨⟨_, (addChunkChecked_cast hcast t).trans (addChunkChecked_eq hnonzero t),
      fixed_advances hlow hhigh t⟩, ?_, fun b hday => ?_, fun hlong => ?_⟩
    · obtain ⟨b, hb⟩ := Lib.exists_lands (fun t => fixed_advances (h := h) hlow hhigh t) t
        ((fixed offset h).localMidnightAtOrBefore t)
      refine ⟨b, ?_, hb.bounds.2.2 (fixed_midnight t).1⟩
      rwa [boundaryRuns_cast hcast, boundaryRuns_iff hnonzero]
    · rw [fixed_chunkBegins hcast, fixed_sameMidnight hday]
      rcases hlength with hshort | hlong
      · have hsame : min (chunkHours % 256) 24 = chunkHours := by omega
        rw [hsame]
      · rw [min_eq_right hlong]
        -- only midnight is left of either
        have hfirst : ∀ length : ℕ, 24 ≤ length → ∀ k : ℕ, k * length < 24 ↔ k = 0 := by
          intro length hlength k
          constructor
          · intro hk
            by_contra hpos
            have := Nat.le_mul_of_pos_left length (Nat.pos_of_ne_zero hpos)
            omega
          · rintro rfl
            omega
        simp only [hfirst 24 le_rfl, hfirst chunkHours (by omega), exists_eq_left]
        simp
    · have hday : min (chunkHours % 256) 24 = 24 := by omega
      rw [addChunkChecked_cast hcast, addChunkChecked_eq hnonzero, hday, fixed_localMidnight]
      have hline := fixed_addChunk_line (h := h) (k := 0) (by decide : 1 ≤ 24) le_rfl
        (localDate ((fixed offset h).toLocal t)) (by decide)
      rw [if_pos (by decide)] at hline
      simp only [Nat.cast_zero, zero_mul, add_zero] at hline
      rw [hline]
      congr 1
      simp only [DAY]
      ring

end Fixed

/-- Thirty hours make one chunk a day. -/
theorem fixed_chunksOf_thirty : (fixed 0 (by decide)).ChunksOf 30 0 :=
  (fixed_chunksOf_iff (by decide) 0).mpr (Or.inr (by decide))

/-- 256 hours divide by zero, and 257 make hourly chunks. -/
theorem fixed_chunksOf_256 : (fixed 0 (by decide)).addChunkChecked 256 0 = none ∧
    (fixed 0 (by decide)).addChunkChecked 257 0 = some HOUR ∧
    ¬ (fixed 0 (by decide)).ChunksOf 256 0 := by
  have hpanics : (fixed 0 (by decide)).addChunkChecked 256 0 = none := rfl
  refine ⟨hpanics, by decide, fun hchunks => ?_⟩
  obtain ⟨next, hnext, -⟩ := hchunks.advances
  rw [hpanics] at hnext
  cases hnext

end Zone

end EtvStation
