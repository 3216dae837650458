import EtvStation.Lib.Outcome
import EtvStation.Pattern.Pool
import Mathlib.Data.List.Basic
import Mathlib.Tactic.Common

/-! What a visit can do to a pool. A choice of series moves only the rotation, the hold and
the clash count; the ids come off the series as slices, each leaving its series after the
last id taken. -/
namespace EtvStation

/-- A cursor always names an item of its series. -/
def InRange (series : List Series) : Prop := ∀ s ∈ series, s.cursor < s.ids.length

/-- `draws` were cut off the series in order: each a non-empty slice of one series, from its
cursor unless the visit places cursors, after which the series stands past the slice. -/
inductive Drew (placed : Bool) : List Series → List (ℕ × List EntryId) → List Series → Prop
  | nil (l : List Series) : Drew placed l [] l
  | cons {l l' : List Series} {si c : ℕ} {s : Series} {taken : List EntryId}
      {rest : List (ℕ × List EntryId)} (hs : l[si]? = some s) (hc : c < s.ids.length)
      (hcursor : placed = false → c = s.cursor)
      (htaken : taken = (s.ids.drop c).take taken.length) (hne : taken ≠ [])
      (hrest : Drew placed (l.set si (s.advanceTo (c + taken.length))) rest l') :
      Drew placed l ((si, taken) :: rest) l'

namespace Drew

variable {placed : Bool} {l l' l'' : List Series} {draws draws' : List (ℕ × List EntryId)}

theorem append (h : Drew placed l draws l') (h' : Drew placed l' draws' l'') :
    Drew placed l (draws ++ draws') l'' := by
  induction h with
  | nil => exact h'
  | cons hs hc hcursor htaken hne _ ih => exact .cons hs hc hcursor htaken hne (ih h')

theorem single {si c : ℕ} {s : Series} {taken : List EntryId} (hs : l[si]? = some s)
    (hc : c < s.ids.length) (hcursor : placed = false → c = s.cursor)
    (htaken : taken = (s.ids.drop c).take taken.length) (hne : taken ≠ []) :
    Drew placed l [(si, taken)] (l.set si (s.advanceTo (c + taken.length))) :=
  .cons hs hc hcursor htaken hne (.nil _)

theorem placed_of (h : Drew false l draws l') : Drew placed l draws l' := by
  induction h with
  | nil => exact .nil _
  | cons hs hc hcursor htaken hne _ ih => exact .cons hs hc (fun _ => hcursor rfl) htaken hne ih

theorem length_eq (h : Drew placed l draws l') : l'.length = l.length := by
  induction h with
  | nil => rfl
  | cons _ _ _ _ _ _ ih => simpa using ih

end Drew

theorem Series.advanceTo_cursor_lt {s : Series} (h : s.ids ≠ []) (n : ℕ) :
    (s.advanceTo n).cursor < (s.advanceTo n).ids.length := by
  have hlen := List.length_pos_iff.mpr h
  simp only [Series.advanceTo]
  split_ifs <;> omega

theorem InRange.set {l : List Series} (h : InRange l) {si : ℕ} {s : Series}
    (hs : s.cursor < s.ids.length) : InRange (l.set si s) := by
  intro t ht
  rcases List.mem_or_eq_of_mem_set ht with ht | rfl
  · exact h t ht
  · exact hs

theorem Drew.inRange {placed : Bool} {l l' : List Series} {draws : List (ℕ × List EntryId)}
    (h : Drew placed l draws l') (hl : InRange l) : InRange l' := by
  induction h with
  | nil => exact hl
  | cons _ hc _ _ _ _ ih =>
    have hne := List.ne_nil_of_length_pos (Nat.zero_lt_of_lt hc)
    exact ih (hl.set (Series.advanceTo_cursor_lt hne _))

namespace PoolRuntime

/-- A choice moves nothing but the rotation, the clash count and, under a span, the hold. -/
def Chose (a b : PoolRuntime) : Prop :=
  ∃ rotation forced hold, b = { a with rotation, forced, hold } ∧ a.forced ≤ forced ∧
    (a.period = none → hold = a.hold)

theorem Chose.refl (a : PoolRuntime) : a.Chose a := ⟨_, _, _, rfl, le_rfl, fun _ => rfl⟩

theorem Chose.trans {a b c : PoolRuntime} (h : a.Chose b) (h' : b.Chose c) : a.Chose c := by
  obtain ⟨r, f, hd, rfl, hf, hh⟩ := h
  obtain ⟨r', f', hd', rfl, hf', hh'⟩ := h'
  exact ⟨r', f', hd', rfl, hf.trans hf', fun hp => (hh' hp).trans (hh hp)⟩

theorem Chose.series_eq {a b : PoolRuntime} (h : a.Chose b) : b.series = a.series := by
  obtain ⟨_, _, _, rfl, _⟩ := h
  rfl

theorem Chose.cfg_eq {a b : PoolRuntime} (h : a.Chose b) : b.cfg = a.cfg := by
  obtain ⟨_, _, _, rfl, _⟩ := h
  rfl

theorem Chose.period_eq {a b : PoolRuntime} (h : a.Chose b) : b.period = a.period := by
  obtain ⟨_, _, _, rfl, _⟩ := h
  rfl

theorem ownEligibleFrom_chose (rt : PoolRuntime) (start : ℕ) :
    rt.Chose (rt.ownEligibleFrom start).2 := by
  unfold ownEligibleFrom
  split
  · exact Chose.refl rt
  · split
    · exact Chose.refl rt
    · split
      · exact Chose.refl rt
      · exact ⟨_, _, _, rfl, Nat.le_succ _, fun _ => rfl⟩

theorem scanFrom_chose (rt : PoolRuntime) (start : ℕ) (ch : ChannelHistory) :
    rt.Chose (rt.scanFrom start ch).2.1 := by
  unfold scanFrom
  split
  · exact Chose.refl rt
  · exact rt.ownEligibleFrom_chose start

theorem eligibleFrom_chose (rt : PoolRuntime) (start : ℕ) (ch : ChannelHistory) :
    rt.Chose (rt.eligibleFrom start ch).2.1 := by
  unfold eligibleFrom
  split
  · exact Chose.refl rt
  · split
    · exact Chose.refl rt
    · exact rt.scanFrom_chose start _

theorem eligiblePick_chose (rt : PoolRuntime) (roll : RollKey) (nonce : UInt64)
    (ch : ChannelHistory) : rt.Chose (rt.eligiblePick roll nonce ch).2.1 := by
  unfold eligiblePick
  split
  · exact Chose.refl rt
  · split
    · exact Chose.refl rt
    · dsimp only
      split
      · exact Chose.refl rt
      · exact rt.scanFrom_chose _ _

theorem endHold_chose (rt : PoolRuntime) : rt.Chose rt.endHold := by
  unfold endHold
  split
  · exact Chose.refl rt
  · split
    · exact ⟨_, _, _, rfl, le_rfl, fun _ => rfl⟩
    · exact Chose.refl rt

theorem firstSeries_chose (rt : PoolRuntime) (roll : RollKey) (nonce : UInt64)
    (ch : ChannelHistory) : rt.Chose (rt.firstSeries roll nonce ch).2.1 := by
  unfold firstSeries
  split
  · exact rt.eligiblePick_chose roll nonce ch
  · next hperiod =>
    split
    · exact ⟨_, _, _, rfl, le_rfl, fun h => by simp [hperiod] at h⟩
    · have hpick := rt.endHold_chose.trans (rt.endHold.eligiblePick_chose roll nonce ch)
      split
      · next heq => simpa [heq] using hpick
      · next rt' ch' heq =>
        rw [heq] at hpick
        have hperiod' : rt'.period = rt.period := hpick.period_eq
        exact hpick.trans ⟨_, _, _, rfl, le_rfl, fun h => by simp [hperiod, hperiod'] at h⟩

theorem shortTurn_chose (rt : PoolRuntime) (si : ℕ) (ch : ChannelHistory) :
    rt.Chose (rt.shortTurn si ch).2.1 := by
  unfold shortTurn
  split
  · split
    · exact rt.eligibleFrom_chose _ ch
    · exact Chose.refl rt
  · dsimp only
    split_ifs
    · exact ⟨_, _, _, rfl, Nat.le_succ _, fun _ => rfl⟩
    · exact Chose.refl rt
  · exact Chose.refl rt

section Range

variable {rt : PoolRuntime}

theorem seriesAt_lt {i si : ℕ} (h : rt.seriesAt i = some si) : si < rt.series.length := by
  simp only [seriesAt] at h
  split_ifs at h with hempty
  obtain rfl := Option.some.inj h
  exact Nat.mod_lt _ (List.length_pos_iff.mpr (by simpa using hempty))

theorem pick_lt {roll : RollKey} {nonce : UInt64} {si : ℕ} (h : rt.pick roll nonce = some si) :
    si < rt.series.length := by
  unfold pick at h
  split at h <;> exact seriesAt_lt h

theorem turnsFrom_lt {start si : ℕ} (h : si ∈ rt.turnsFrom start) : si < rt.series.length := by
  obtain ⟨step, hstep, rfl⟩ := List.mem_map.mp h
  exact Nat.mod_lt _ (Nat.zero_lt_of_lt (List.mem_range.mp hstep))

theorem ownEligibleFrom_lt {start : ℕ} (h : start < rt.series.length) :
    (rt.ownEligibleFrom start).1 < rt.series.length := by
  unfold ownEligibleFrom
  split
  · next hfind => exact turnsFrom_lt (List.mem_of_find?_eq_some hfind)
  · split
    · exact h
    · split
      · next hfind => exact turnsFrom_lt (List.mem_of_find?_eq_some hfind)
      · exact h

theorem scanFrom_lt {start : ℕ} (h : start < rt.series.length) (ch : ChannelHistory) :
    (rt.scanFrom start ch).1 < rt.series.length := by
  unfold scanFrom
  split
  · next hfind => exact turnsFrom_lt (List.mem_of_find?_eq_some hfind)
  · exact ownEligibleFrom_lt h

theorem eligibleFrom_lt {start si : ℕ} (h : start < rt.series.length) {ch : ChannelHistory}
    (hsi : (rt.eligibleFrom start ch).1 = some si) : si < rt.series.length := by
  unfold eligibleFrom at hsi
  split at hsi
  · exact Option.some.inj hsi ▸ h
  · split at hsi
    · simp at hsi
    · exact Option.some.inj hsi ▸ scanFrom_lt h _

theorem eligiblePick_lt {roll : RollKey} {nonce : UInt64} {ch : ChannelHistory} {si : ℕ}
    (hsi : (rt.eligiblePick roll nonce ch).1 = some si) : si < rt.series.length := by
  unfold eligiblePick at hsi
  split at hsi
  · simp at hsi
  · next first hfirst =>
    split at hsi
    · exact Option.some.inj hsi ▸ pick_lt hfirst
    · dsimp only at hsi
      split at hsi
      · next hrolled =>
        obtain rfl := Option.some.inj hsi
        split_ifs at hrolled
        obtain ⟨k, _, hk⟩ := List.exists_of_findSome?_eq_some hrolled
        dsimp only at hk
        split at hk
        · next hat =>
          split_ifs at hk
          exact Option.some.inj hk ▸ seriesAt_lt hat
        · simp at hk
      · exact Option.some.inj hsi ▸ scanFrom_lt (pick_lt hfirst) _

theorem firstSeries_lt {roll : RollKey} {nonce : UInt64} {ch : ChannelHistory} {si : ℕ}
    (hsi : (rt.firstSeries roll nonce ch).1 = some si) : si < rt.series.length := by
  unfold firstSeries at hsi
  split at hsi
  · exact eligiblePick_lt hsi
  · split at hsi
    · next hheld =>
      obtain ⟨hold, _, hmap⟩ := Option.bind_eq_some_iff.mp hheld
      obtain ⟨si', hsi', heq⟩ := Option.map_eq_some_iff.mp hmap
      obtain ⟨rfl, rfl⟩ := Prod.mk.inj heq
      obtain rfl := Option.some.inj hsi
      simp only [heldSeries] at hsi'
      split at hsi'
      · next hidx =>
        split_ifs at hsi'
        obtain rfl := Option.some.inj hsi'
        exact (List.findIdx?_eq_some_iff_getElem.mp hidx).1
      · simp at hsi'
    · have hlen := congrArg List.length rt.endHold_chose.series_eq
      split at hsi
      · simp at hsi
      · next heq =>
        obtain rfl := Option.some.inj hsi
        rw [← hlen]
        exact eligiblePick_lt (congrArg Prod.fst heq)

theorem shortTurn_lt {si next : ℕ} {ch : ChannelHistory} (h : si < rt.series.length)
    (hnext : (rt.shortTurn si ch).1 = some next) : next < rt.series.length := by
  unfold shortTurn at hnext
  split at hnext
  · split at hnext
    · next hafter => exact eligibleFrom_lt (seriesAt_lt hafter) hnext
    · simp at hnext
  · exact Option.some.inj hnext ▸ h
  · simp at hnext

end Range

theorem nth_of_getElem? {rt : PoolRuntime} {si : ℕ} {s : Series} (h : rt.series[si]? = some s) :
    rt.nth si = s := by
  simp [nth, List.getD_eq_getElem?_getD, h]

theorem exists_getElem? {rt : PoolRuntime} {si : ℕ} (h : si < rt.series.length) :
    rt.series[si]? = some (rt.nth si) := by
  simp [nth, List.getD_eq_getElem?_getD, List.getElem?_eq_getElem h]

theorem modifyNth_series {rt : PoolRuntime} {si : ℕ} {s : Series} (h : rt.series[si]? = some s)
    (f : Series → Series) : (rt.modifyNth si f).series = rt.series.set si (f s) := by
  simp only [modifyNth, List.modify_eq_set_getElem?, h]
  rfl

/-- What a visit may change of a pool, the hold only under a span. -/
def Moved (a b : PoolRuntime) : Prop :=
  ∃ series rotation recent forced drawn lap visitResumable hold,
    b = { a with series, rotation, recent, forced, drawn, lap, visitResumable, hold } ∧
      a.forced ≤ forced ∧ (a.period = none → hold = a.hold)

theorem Moved.refl (a : PoolRuntime) : a.Moved a := ⟨_, _, _, _, _, _, _, _, rfl, le_rfl, fun _ => rfl⟩

theorem Moved.trans {a b c : PoolRuntime} (h : a.Moved b) (h' : b.Moved c) : a.Moved c := by
  obtain ⟨_, _, _, f, _, _, _, _, rfl, hf, hh⟩ := h
  obtain ⟨_, _, _, f', _, _, _, _, rfl, hf', hh'⟩ := h'
  exact ⟨_, _, _, _, _, _, _, _, rfl, hf.trans hf', fun hp => (hh' hp).trans (hh hp)⟩

theorem Chose.moved {a b : PoolRuntime} (h : a.Chose b) : a.Moved b := by
  obtain ⟨_, _, _, rfl, hf, hh⟩ := h
  exact ⟨_, _, _, _, _, _, _, _, rfl, hf, hh⟩

theorem remember_moved (rt : PoolRuntime) (ids : List EntryId) : rt.Moved (rt.remember ids) := by
  unfold remember
  split_ifs
  · exact Moved.refl rt
  · exact ⟨_, _, _, _, _, _, _, _, rfl, le_rfl, fun _ => rfl⟩

theorem remember_series (rt : PoolRuntime) (ids : List EntryId) :
    (rt.remember ids).series = rt.series := by
  unfold remember
  split_ifs <;> rfl

theorem takeFrom_moved (rt : PoolRuntime) (si want : ℕ) : rt.Moved (rt.takeFrom si want).2 :=
  ⟨_, _, _, _, _, _, _, _, rfl, le_rfl, fun _ => rfl⟩

/-- A pass that wants something draws from the cursor on. -/
theorem takeFrom_drew {rt : PoolRuntime} {si want : ℕ} {s : Series}
    (hs : rt.series[si]? = some s) (hc : s.cursor < s.ids.length) (hwant : 0 < want) :
    (rt.takeFrom si want).1 ≠ [] ∧
      Drew false rt.series [(si, (rt.takeFrom si want).1)] (rt.takeFrom si want).2.series := by
  have hlen : (rt.takeFrom si want).1.length = min want s.remaining := by
    simp [takeFrom, nth_of_getElem? hs, Series.remaining]
  have hpos : 0 < min want s.remaining := by
    simp only [Series.remaining]
    omega
  have hne : (rt.takeFrom si want).1 ≠ [] := List.ne_nil_of_length_pos (hlen ▸ hpos)
  have hseries : (rt.takeFrom si want).2.series =
      rt.series.set si (s.advanceTo (s.cursor + (rt.takeFrom si want).1.length)) := by
    rw [hlen]
    simp only [takeFrom, nth_of_getElem? hs, modifyNth_series hs]
  refine ⟨hne, ?_⟩
  rw [hseries]
  refine Drew.single hs hc (fun _ => rfl) ?_ hne
  rw [hlen]
  simp only [takeFrom, nth_of_getElem? hs]

/-- What `draws` add to a visit under way. -/
structure Serving.Continues (s r : Serving) (draws : List (ℕ × List EntryId)) : Prop where
  drew : Drew false s.rt.series draws r.rt.series
  moved : s.rt.Moved r.rt
  out_eq : r.out = s.out ++ draws.flatMap Prod.snd
  contributed_eq : r.contributed =
    draws.foldl (fun m d => m.insert d.1 (m.getD d.1 0 + d.2.length)) s.contributed
  last_eq : r.last = (draws.getLast?.map Prod.fst).or s.last

theorem Serving.Continues.refl (s : Serving) : s.Continues s [] :=
  ⟨.nil _, Moved.refl _, by simp, rfl, by simp⟩

theorem Serving.Continues.trans {s r t : Serving} {draws draws' : List (ℕ × List EntryId)}
    (h : s.Continues r draws) (h' : r.Continues t draws') : s.Continues t (draws ++ draws') where
  drew := h.drew.append h'.drew
  moved := h.moved.trans h'.moved
  out_eq := by rw [h'.out_eq, h.out_eq, List.flatMap_append, List.append_assoc]
  contributed_eq := by rw [h'.contributed_eq, h.contributed_eq, List.foldl_append]
  last_eq := by
    rw [h'.last_eq, h.last_eq, List.getLast?_append]
    cases draws'.getLast? <;> simp

/-- One pass of the loop, the turn it hands on included. -/
theorem took_continues (cat : Catalog) {s : Serving} {si want : ℕ}
    (hs : si < s.rt.series.length) (hr : InRange s.rt.series) (hwant : 0 < want)
    {rt' : PoolRuntime} {channel' : ChannelHistory}
    (hchose : (s.took cat (s.rt.takeFrom si want).2 si (s.rt.takeFrom si want).1).rt.Chose rt') :
    s.Continues { s.took cat (s.rt.takeFrom si want).2 si (s.rt.takeFrom si want).1 with
      rt := rt', channel := channel' } [(si, (s.rt.takeFrom si want).1)] := by
  have hget := exists_getElem? hs
  obtain ⟨_, hdrew⟩ := takeFrom_drew hget (hr _ (List.mem_of_getElem? hget)) hwant
  refine ⟨?_, ?_, by simp [Serving.took], rfl, rfl⟩
  · simpa only [hchose.series_eq, Serving.took, remember_series] using hdrew
  · exact ((takeFrom_moved _ _ _).trans (remember_moved _ _)).trans hchose.moved

/-- The loop of a visit that still wants something: every pass draws, starting on the series
it opens with. -/
theorem serveLoop_continues (cat : Catalog) (take passes : ℕ) (current : Option ℕ)
    (s : Serving) (hr : InRange s.rt.series)
    (hcur : ∀ si, current = some si → si < s.rt.series.length) (hneed : s.out.length < take) :
    ∃ draws, s.Continues (serveLoop cat take passes current s) draws ∧
      (0 < passes → draws.head?.map Prod.fst = current) := by
  induction passes generalizing current s with
  | zero => exact ⟨[], .refl s, fun h => absurd h (lt_irrefl 0)⟩
  | succ passes ih =>
    cases current with
    | none => exact ⟨[], .refl s, fun _ => rfl⟩
    | some si =>
      have hsi := hcur si rfl
      have hget := exists_getElem? hsi
      have hwant : 0 < take - s.out.length := by omega
      obtain ⟨hne, -⟩ := takeFrom_drew hget (hr _ (List.mem_of_getElem? hget)) hwant
      have hempty : (s.rt.takeFrom si (take - s.out.length)).1.isEmpty = false := by
        simpa using hne
      simp only [serveLoop, hempty, Bool.false_eq_true, if_false]
      split_ifs with hdone
      · exact ⟨_, took_continues cat hsi hr hwant (Chose.refl _), fun _ => rfl⟩
      · set s' := s.took cat (s.rt.takeFrom si (take - s.out.length)).2 si
          (s.rt.takeFrom si (take - s.out.length)).1 with hs'
        have hchose := s'.rt.shortTurn_chose si s'.channel
        have hstep : s.Continues { s' with
            rt := (s'.rt.shortTurn si s'.channel).2.1
            channel := (s'.rt.shortTurn si s'.channel).2.2 } _ :=
          took_continues cat hsi hr hwant hchose
        have hlen := hstep.drew.length_eq
        obtain ⟨draws, hrest, -⟩ := ih (s'.rt.shortTurn si s'.channel).1 _
          (hstep.drew.inRange hr)
          (fun next hnext => by
            rw [hchose.series_eq]
            refine shortTurn_lt ?_ hnext
            rw [← hchose.series_eq, hlen]
            exact hsi)
          (by simpa using hdone)
        exact ⟨_, hstep.trans hrest, fun _ => rfl⟩

theorem passHold_moved (rt : PoolRuntime) (first last : Option ℕ) :
    rt.Moved (rt.passHold first last) := by
  unfold passHold
  split
  · next hperiod =>
    split_ifs
    · exact Moved.refl rt
    · exact ⟨_, _, _, _, _, _, _, _, rfl, le_rfl, fun h => by simp [hperiod] at h⟩
  · exact Moved.refl rt

theorem passHold_series (rt : PoolRuntime) (first last : Option ℕ) :
    (rt.passHold first last).series = rt.series := by
  unfold passHold
  split
  · split_ifs <;> rfl
  · rfl

theorem park_moved (rt : PoolRuntime) (last : Option ℕ) (contributed : HashMap ℕ ℕ) (take : ℕ) :
    rt.Moved (rt.park last contributed take) := by
  unfold park
  split
  · exact ⟨_, _, _, _, _, _, _, _, rfl, le_rfl, fun _ => rfl⟩
  · exact Moved.refl rt

theorem park_series (rt : PoolRuntime) (last : Option ℕ) (contributed : HashMap ℕ ℕ)
    (take : ℕ) : (rt.park last contributed take).series = rt.series := by
  unfold park
  split <;> rfl

theorem Serving.finish_moved (s : Serving) (from_ : TakeFrom) (first : Option ℕ) (take : ℕ) :
    s.rt.Moved (s.finish from_ first take).2.1 :=
  (passHold_moved _ _ _).trans
    (Moved.trans ⟨_, _, _, _, _, _, _, _, rfl, le_rfl, fun _ => rfl⟩ (park_moved _ _ _ _))

theorem Serving.finish_series (s : Serving) (from_ : TakeFrom) (first : Option ℕ) (take : ℕ) :
    (s.finish from_ first take).2.1.series = s.rt.series := by
  simp only [Serving.finish, park_series, noteLap, passHold_series]

/-- The placed cursor of a visit that takes something stays inside its series. -/
theorem placeCursor_series {rt : PoolRuntime} {si take : ℕ} {s : Series}
    (hs : rt.series[si]? = some s) (hc : s.cursor < s.ids.length) (htake : 0 < take)
    (from_ : TakeFrom) (roll : RollKey) (nonce : UInt64) :
    ∃ c, c < s.ids.length ∧ (from_ = .start → c = s.cursor) ∧
      (rt.placeCursor from_ si take roll nonce).series = rt.series.set si { s with cursor := c } := by
  have hsub : s.ids.length - take < s.ids.length := by omega
  cases from_ with
  | start =>
    refine ⟨s.cursor, hc, fun _ => rfl, ?_⟩
    obtain ⟨hlt, rfl⟩ := List.getElem?_eq_some_iff.mp hs
    exact (List.set_getElem_self hlt).symm
  | atEnd =>
    refine ⟨s.ids.length - take, hsub, nofun, ?_⟩
    simp only [placeCursor, modifyNth_series hs, nth_of_getElem? hs]
  | random =>
    have hmod := Nat.mod_lt (roll.u64At (nonce + FROM_STRIDE)).toNat
      (show 0 < s.ids.length - take + 1 by omega)
    refine ⟨(roll.u64At (nonce + FROM_STRIDE)).toNat % (s.ids.length - take + 1), by omega,
      nofun, ?_⟩
    simp only [placeCursor, modifyNth_series hs, nth_of_getElem? hs]

theorem placeCursor_moved (rt : PoolRuntime) (from_ : TakeFrom) (si take : ℕ) (roll : RollKey)
    (nonce : UInt64) : rt.Moved (rt.placeCursor from_ si take roll nonce) := by
  cases from_ with
  | start => exact Moved.refl rt
  | atEnd => exact ⟨_, _, _, _, _, _, _, _, rfl, le_rfl, fun _ => rfl⟩
  | random => exact ⟨_, _, _, _, _, _, _, _, rfl, le_rfl, fun _ => rfl⟩

/-- Draws that open on a series whose cursor was just placed are draws with a placed cursor
off the series as it stood. -/
theorem drew_of_placed {l l' : List Series} {si c : ℕ} {s : Series} {from_ : TakeFrom}
    {draws : List (ℕ × List EntryId)} (hs : l[si]? = some s)
    (hstart : from_ = .start → c = s.cursor)
    (hhead : draws.head?.map Prod.fst = some si)
    (h : Drew false (l.set si { s with cursor := c }) draws l') :
    Drew (from_ ≠ .start) l draws l' := by
  obtain ⟨hlt, -⟩ := List.getElem?_eq_some_iff.mp hs
  cases h with
  | nil => simp at hhead
  | @cons _ _ sj cj t taken rest ht hc hcursor htaken hne hrest =>
    obtain rfl : sj = si := by simpa using hhead
    obtain rfl : { s with cursor := c } = t := by simpa [hlt] using ht
    obtain rfl : cj = c := hcursor rfl
    refine .cons hs hc (fun hplaced => hstart (by simpa using hplaced)) htaken hne ?_
    rw [List.set_set] at hrest
    exact hrest.placed_of

def Wants (rt : PoolRuntime) (want : Draw) (done : ℕ) : Prop :=
  (∀ n, want = .count n → done < n) ∧
    ∀ first n, rt.overrideTake first = some n → done < n

theorem serveTake_pos {rt : PoolRuntime} {want : Draw} {first : Option ℕ} {done take : ℕ}
    (hwants : rt.Wants want done) (hr : InRange rt.series)
    (hfirst : ∀ si, first = some si → si < rt.series.length)
    (h : rt.serveTake want first done = some take) : 0 < take := by
  unfold serveTake at h
  split at h
  · next n hover =>
    obtain rfl := Option.some.inj h
    have := hwants.2 _ _ hover
    omega
  · next n _ =>
    obtain rfl := Option.some.inj h
    have := hwants.1 n rfl
    omega
  · next si _ =>
    obtain rfl := Option.some.inj h
    have hmem := List.mem_of_getElem? (exists_getElem? (hfirst si rfl))
    have := hr _ hmem
    simp only [Series.remaining]
    omega
  · simp at h

structure Visited (placed : Bool) (rt : PoolRuntime) (out : List EntryId) (rt' : PoolRuntime) :
    Prop where
  moved : rt.Moved rt'
  drew : ∃ draws, Drew placed rt.series draws rt'.series ∧ out = draws.flatMap Prod.snd

theorem Visited.trans {placed : Bool} {a b c : PoolRuntime} {out out' : List EntryId}
    (h : Visited placed a out b) (h' : Visited placed b out' c) :
    Visited placed a (out ++ out') c := by
  obtain ⟨draws, hd, rfl⟩ := h.drew
  obtain ⟨draws', hd', rfl⟩ := h'.drew
  exact ⟨h.moved.trans h'.moved, _, hd.append hd', by simp⟩

theorem Visited.refl (placed : Bool) (rt : PoolRuntime) : Visited placed rt [] rt :=
  ⟨.refl rt, [], .nil _, rfl⟩

theorem Visited.of_moved {placed : Bool} {a b c : PoolRuntime} {out : List EntryId}
    (h : a.Moved b) (hs : b.series = a.series) (h' : Visited placed b out c) :
    Visited placed a out c := ⟨h.trans h'.moved, hs ▸ h'.drew⟩

theorem serveDraws_visited (cat : Catalog) {rt : PoolRuntime} (from_ : TakeFrom)
    {first : Option ℕ} {take : ℕ} (roll : RollKey) (nonce : UInt64) (ch : ChannelHistory)
    (hr : InRange rt.series) (hfirst : ∀ si, first = some si → si < rt.series.length)
    (htake : 0 < take) :
    Visited (from_ ≠ .start) rt (rt.serveDraws cat from_ first take roll nonce ch).1
      (rt.serveDraws cat from_ first take roll nonce ch).2.1 := by
  cases first with
  | none =>
    have hloop : serveLoop cat take (take + rt.series.length + 1) none { rt, channel := ch } =
        { rt, channel := ch } := rfl
    have hdraws : rt.serveDraws cat from_ none take roll nonce ch =
        Serving.finish { rt, channel := ch } from_ none take := by
      simp only [serveDraws, hloop]
    rw [hdraws]
    refine ⟨Serving.finish_moved _ _ _ _, [], ?_, rfl⟩
    rw [Serving.finish_series]
    exact .nil _
  | some si =>
    have hsi := hfirst si rfl
    have hget := exists_getElem? hsi
    obtain ⟨c, hc, hstart, hplaced⟩ := placeCursor_series hget
      (hr _ (List.mem_of_getElem? hget)) htake from_ roll nonce
    set placed := rt.placeCursor from_ si take roll nonce with hp
    have hlen : placed.series.length = rt.series.length := by simp [hplaced]
    obtain ⟨draws, hcont, hhead⟩ := serveLoop_continues cat take (take + placed.series.length + 1)
      (some si) { rt := placed, channel := ch } (by rw [hplaced]; exact hr.set hc)
      (fun sj hsj => by
        obtain rfl := Option.some.inj hsj
        simpa only [hlen] using hsi)
      htake
    have hdraws : rt.serveDraws cat from_ (some si) take roll nonce ch =
        (serveLoop cat take (take + placed.series.length + 1) (some si)
          { rt := placed, channel := ch }).finish from_ (some si) take := rfl
    rw [hdraws]
    refine ⟨?_, draws, ?_, by simpa [Serving.finish] using hcont.out_eq⟩
    · exact ((placeCursor_moved _ _ _ _ _ _).trans hcont.moved).trans (Serving.finish_moved _ _ _ _)
    · rw [Serving.finish_series]
      refine drew_of_placed hget hstart (hhead (by omega)) ?_
      rw [← hplaced]
      exact hcont.drew

theorem serve_visited (cat : Catalog) {rt rt' : PoolRuntime} {want : Draw} {from_ : TakeFrom}
    {roll : RollKey} {nonce : UInt64} {done : ℕ} {ch ch' : ChannelHistory} {out : List EntryId}
    (hr : InRange rt.series) (hwants : rt.Wants want done)
    (h : rt.serve cat want from_ roll nonce done ch = .ok (out, rt', ch')) :
    Visited (from_ ≠ .start) rt out rt' := by
  have hchose := rt.firstSeries_chose roll nonce ch
  have hlt : ∀ si, (rt.firstSeries roll nonce ch).1 = some si → si < rt.series.length :=
    fun _ => firstSeries_lt
  simp only [serve] at h
  generalize hf : rt.firstSeries roll nonce ch = f at h hchose hlt
  obtain ⟨first, rt₁, ch₁⟩ := f
  dsimp only at h hchose hlt
  have hr₁ : InRange rt₁.series := by rw [hchose.series_eq]; exact hr
  have hlt₁ : ∀ si, first = some si → si < rt₁.series.length := by
    rw [hchose.series_eq]
    exact hlt
  have hwants₁ : rt₁.Wants want done := by
    obtain ⟨_, _, _, rfl, _⟩ := hchose
    exact hwants
  refine Visited.of_moved hchose.moved hchose.series_eq ?_
  cases htake : rt₁.serveTake want first done with
  | none =>
    simp only [htake, Except.ok.injEq, Prod.mk.injEq] at h
    obtain ⟨rfl, rfl, -⟩ := h
    exact .refl _ _
  | some take =>
    have hpos := serveTake_pos hwants₁ hr₁ hlt₁ htake
    have hserved := serveDraws_visited cat from_ roll nonce ch₁ hr₁ hlt₁ hpos
    simp only [htake] at h
    split at h
    · split_ifs at h
      rw [Except.ok.inj h] at hserved
      exact hserved
    · rw [Except.ok.inj h] at hserved
      exact hserved

theorem serveSlots_visited (cat : Catalog) {from_ : TakeFrom} {roll : RollKey} (left slot : ℕ)
    {rt rt' : PoolRuntime} {ch ch' : ChannelHistory} {out out' : List EntryId}
    (hr : InRange rt.series) (hslot : rt.cfg.rotate = .slot)
    (h : serveSlots cat from_ roll left slot out rt ch = .ok (out', rt', ch')) :
    ∃ drawn, out' = out ++ drawn ∧ Visited (from_ ≠ .start) rt drawn rt' := by
  induction left generalizing slot rt ch out with
  | zero =>
    simp only [serveSlots, Except.ok.injEq, Prod.mk.injEq] at h
    obtain ⟨rfl, rfl, -⟩ := h
    exact ⟨[], by simp, .refl _ _⟩
  | succ left ih =>
    simp only [serveSlots] at h
    split_ifs at h with hdry
    · simp only [Except.ok.injEq, Prod.mk.injEq] at h
      obtain ⟨rfl, rfl, -⟩ := h
      exact ⟨[], by simp, .refl _ _⟩
    · obtain ⟨⟨ids, rt₁, ch₁⟩, hserve, h⟩ := Lib.bind_eq_ok.mp h
      have hwants : rt.Wants (.count 1) 0 :=
        ⟨fun n hn => by cases hn; exact Nat.one_pos, fun first n hn => by
          simp [overrideTake, hslot] at hn⟩
      have hone := serve_visited cat hr hwants hserve
      have hslot₁ : rt₁.cfg.rotate = .slot := by
        obtain ⟨_, _, _, _, _, _, _, _, rfl, _⟩ := hone.moved
        exact hslot
      obtain ⟨draws, hdrew, -⟩ := hone.drew
      obtain ⟨drawn, rfl, hrest⟩ := ih (slot + 1) (hdrew.inRange hr) hslot₁ h
      exact ⟨ids ++ drawn, by simp, hone.trans hrest⟩

/-- A visit to a step that names at least one item, resumed before its last. -/
def WantsVisit (rt : PoolRuntime) (take : Take) (roll : RollKey) (done : ℕ) : Prop :=
  resolveTake take roll ≠ .count 0 → rt.Wants (resolveTake take roll) done

/-- A visit draws slices off its pool's series and nothing else. -/
theorem visit_visited (cat : Catalog) {rt rt' : PoolRuntime} {take : Take} {from_ : TakeFrom}
    {roll : RollKey} {done : ℕ} {ch ch' : ChannelHistory} {out : List EntryId}
    (hr : InRange rt.series) (hwants : rt.WantsVisit take roll done)
    (h : rt.visit cat take from_ roll done ch = .ok (out, rt', ch')) :
    Visited (from_ ≠ .start) rt out rt' := by
  have hopen : rt.Moved { rt with visitResumable := false } :=
    ⟨_, _, _, _, _, _, _, _, rfl, le_rfl, fun _ => rfl⟩
  have hr' : InRange { rt with visitResumable := false }.series := hr
  refine Visited.of_moved hopen rfl ?_
  simp only [visit] at h
  split at h
  · simp only [Except.ok.injEq, Prod.mk.injEq] at h
    obtain ⟨rfl, rfl, -⟩ := h
    exact .refl _ _
  · next hnone =>
    have hne : resolveTake take roll ≠ .count 0 := by
      intro hzero
      simp [hzero] at hnone
    split at h
    · next hslot =>
      split at h
      · simp at h
      obtain ⟨⟨ids, rt₁, ch₁⟩, hslots, h⟩ := Lib.bind_eq_ok.mp h
      obtain ⟨drawn, hids, hvisited⟩ := serveSlots_visited cat _ _ hr' hslot hslots
      simp only [pure, Except.pure, Except.ok.injEq, Prod.mk.injEq] at h
      obtain ⟨rfl, rfl, -⟩ := h
      obtain rfl : ids = drawn := by simpa using hids
      exact ⟨hvisited.moved.trans ⟨_, _, _, _, _, _, _, _, rfl, le_rfl, fun _ => rfl⟩, hvisited.drew⟩
    · exact serve_visited cat hr' (hwants hne) h
    · exact serve_visited cat hr' (hwants hne) h

end PoolRuntime

end EtvStation
