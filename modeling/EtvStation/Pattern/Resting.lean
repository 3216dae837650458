import EtvStation.Lib.Round
import EtvStation.Pattern.Channel
import EtvStation.Pattern.Full
import EtvStation.Pattern.Free

/-! A series that ran out waits: it does not open again before every other series of its pool
has given something in the lap it finished in. -/
namespace EtvStation

/-- A series has given something since a lap began: one of its items is among the draws `since`,
or the lap had it already where the walk begins. -/
def Given (opened : Finset String) (since : List EntryId) (label : String × List EntryId) : Prop :=
  (∃ x ∈ since, x ∈ label.2) ∨ label.1 ∈ opened

theorem Given.append {opened : Finset String} {since : List EntryId}
    {label : String × List EntryId} (h : Given opened since label) (more : List EntryId) :
    Given opened (since ++ more) label := by
  rcases h with ⟨x, hx, hmem⟩ | h
  · exact Or.inl ⟨x, List.mem_append_left _ hx, hmem⟩
  · exact Or.inr h

/-- Whenever the series of items `own`, its reading `start` into a round of `n` as the lap began,
opens again among the draws `out`, those before them since the lap are `ok`. -/
def Waited (own : List EntryId) (n start : ℕ) (ok : List EntryId → Prop)
    (since out : List EntryId) : Prop :=
  ∀ p x q, out = p ++ x :: q → x ∈ own → 0 < (since ++ p).countP (own.contains ·) →
    (start + (since ++ p).countP (own.contains ·)) % n = 0 → ok (since ++ p)

namespace Waited

variable {own : List EntryId} {n start : ℕ} {ok : List EntryId → Prop}
  {since out out' : List EntryId}

theorem append (h : Waited own n start ok since out)
    (h' : Waited own n start ok (since ++ out) out') :
    Waited own n start ok since (out ++ out') := by
  intro p x q heq hx hpos hmod
  rcases List.append_eq_append_iff.mp heq with ⟨p', rfl, hout'⟩ | ⟨q', hout, hq⟩
  · rw [← List.append_assoc] at hpos hmod ⊢
    exact h' p' x q hout' hx hpos hmod
  · cases q' with
    | nil =>
      rw [List.append_nil] at hout
      rw [hout] at h'
      have hnil := h' [] x q hq.symm hx
      rw [List.append_nil] at hnil
      exact hnil hpos hmod
    | cons y q' =>
      obtain ⟨rfl, -⟩ := List.cons.inj hq
      exact h p x q' hout hx hpos hmod

theorem of_foreign (h : ∀ x ∈ out, x ∉ own) : Waited own n start ok since out := by
  intro p x q heq hx
  rw [heq] at h
  exact absurd hx (h x (List.mem_append_right _ List.mem_cons_self))

/-- A slice of the series opens it again only with its first item, from the top. -/
theorem of_slice (hown : ∀ x ∈ out, x ∈ own)
    (hfit : (start + since.countP (own.contains ·)) % n + out.length ≤ n)
    (htop : (start + since.countP (own.contains ·)) % n = 0 →
      0 < since.countP (own.contains ·) → ok since) : Waited own n start ok since out := by
  intro p x q heq hx hpos hmod
  have hlen := congrArg List.length heq
  rw [List.length_append, List.length_cons] at hlen
  have hcount : p.countP (own.contains ·) = p.length := by
    apply List.countP_eq_length.mpr
    intro y hy
    apply List.contains_iff_mem.mpr
    apply hown
    rw [heq]
    exact List.mem_append_left _ hy
  rw [List.countP_append, hcount, ← Nat.add_assoc, ← Nat.mod_add_mod,
    Nat.mod_eq_of_lt (by omega)] at hmod
  have hnil : p = [] := List.eq_nil_of_length_eq_zero (by omega)
  rw [hnil, List.append_nil] at hpos ⊢
  exact htop (by omega) hpos

end Waited

namespace PoolRuntime

/-! ## Choices -/

section Choices

variable {rt : PoolRuntime} {ch : ChannelHistory}

/-- A choice never falls on a resting series while another could serve. -/
def FairChoice (rt : PoolRuntime) (si : ℕ) : Prop :=
  rt.rested si = true → ∀ i < rt.series.length, rt.rested i = true

theorem freeFrom_spec {start : ℕ} (hlt : start < rt.series.length) :
    ∃ j, rt.freeFrom start = (start + j) % rt.series.length ∧
      (∀ i < j, rt.rested ((start + i) % rt.series.length) = true) ∧
      rt.FairChoice (rt.freeFrom start) := by
  unfold freeFrom turnsFrom
  rw [List.find?_map]
  cases hfind : (List.range rt.series.length).find?
      ((fun si => !rt.rested si) ∘ fun step => (start + step) % rt.series.length) with
  | some j =>
    obtain ⟨hj, -, hbefore⟩ := List.find?_range_eq_some.mp hfind
    simp only [Function.comp_apply, Bool.not_eq_true'] at hj
    refine ⟨j, rfl, ?_, ?_⟩
    · intro i hi
      simpa using hbefore i hi
    · intro hrested
      rw [Option.map_some, Option.getD_some, hj] at hrested
      cases hrested
  | none =>
    have hall := List.find?_range_eq_none.mp hfind
    refine ⟨0, (Nat.mod_eq_of_lt hlt).symm, fun i hi => absurd hi (Nat.not_lt_zero i), ?_⟩
    intro _ i hi
    have hplace := hall ((i + rt.series.length - start) % rt.series.length)
      (Nat.mod_lt _ (Nat.zero_lt_of_lt hlt))
    simp only [Function.comp_apply, Nat.add_mod_mod, Bool.not_eq_true', Bool.not_eq_false'] at hplace
    rw [Nat.add_sub_cancel' (by omega), Nat.add_mod_right, Nat.mod_eq_of_lt hi] at hplace
    simpa using hplace

theorem freeReroll_rested {roll : RollKey} {nonce : UInt64} {si : ℕ}
    (h : rt.freeReroll roll nonce = some si) : rt.rested si = false := by
  obtain ⟨k, -, hk⟩ := List.exists_of_findSome?_eq_some h
  have hfree := (Option.filter_eq_some_iff.mp hk).2
  simpa using hfree

theorem freePick_fair {roll : RollKey} {nonce : UInt64} {si : ℕ}
    (h : rt.freePick roll nonce = some si) : rt.FairChoice si := by
  obtain ⟨first, hfirst, rfl⟩ := Option.map_eq_some_iff.mp h
  have hlt := pick_lt hfirst
  by_cases hrested : rt.rested first = true
  · rw [if_pos hrested]
    cases hroll : (if rt.cfg.select = .random then rt.freeReroll roll nonce else none) with
    | some sj =>
      intro hsj
      split_ifs at hroll
      rw [Option.getD_some, freeReroll_rested hroll] at hsj
      cases hsj
    | none =>
      obtain ⟨-, -, -, hfair⟩ := freeFrom_spec hlt
      exact hfair
  · rw [if_neg hrested]
    exact fun h => absurd h hrested

/-- What an opening leaves for the visit it opens. -/
structure Opening (rt rt' : PoolRuntime) : Prop where
  series : rt'.series = rt.series
  lap : rt'.lap = rt.lap
  cfg : rt'.cfg = rt.cfg
  limits : rt'.limits = rt.limits

theorem Opening.rested_eq {rt rt' : PoolRuntime} (h : rt.Opening rt') (si : ℕ) :
    rt'.rested si = rt.rested si := by
  rw [rested, rested, nth, nth, h.series, h.lap, h.cfg]

theorem Opening.fair_iff {rt rt' : PoolRuntime} (h : rt.Opening rt') {si : ℕ} :
    rt'.FairChoice si ↔ rt.FairChoice si := by
  unfold FairChoice
  rw [h.rested_eq, h.series]
  simp only [h.rested_eq]

theorem Opening.of_chose {rt rt' : PoolRuntime} (h : rt.Chose rt') : rt.Opening rt' := by
  obtain ⟨_, _, _, rfl, -, -⟩ := h
  exact ⟨rfl, rfl, rfl, rfl⟩

/-- A visit opens on a series that need not rest. -/
theorem firstSeries_fair (h : rt.limits.isUnconstrained = true) (hc : ch.isUnconstrained = true)
    {roll : RollKey} {nonce : UInt64} {si : ℕ}
    (hfirst : (rt.firstSeries roll nonce ch).1 = some si) : rt.FairChoice si := by
  unfold firstSeries at hfirst
  cases hperiod : rt.period with
  | none =>
    rw [hperiod] at hfirst
    dsimp only at hfirst
    rw [eligiblePick_of_limits h hc] at hfirst
    exact freePick_fair hfirst
  | some period =>
    obtain ⟨periodStart, periodEnd⟩ := period
    rw [hperiod] at hfirst
    dsimp only at hfirst
    cases hheld : rt.hold.bind fun hold =>
        (rt.heldSeries hold periodStart).map fun si => (hold, si) with
    | some held =>
      obtain ⟨hold, -, hmap⟩ := Option.bind_eq_some_iff.mp hheld
      obtain ⟨sj, hsj, rfl⟩ := Option.map_eq_some_iff.mp hmap
      rw [hheld] at hfirst
      obtain rfl := Option.some.inj hfirst
      unfold heldSeries at hsj
      cases hfind : rt.series.findIdx? (·.key == hold.series) with
      | none =>
        rw [hfind] at hsj
        cases hsj
      | some i =>
        rw [hfind] at hsj
        dsimp only at hsj
        split_ifs at hsj with hstands
        obtain rfl := Option.some.inj hsj
        rw [Bool.and_eq_true, Bool.not_eq_true'] at hstands
        intro hrested
        simp [rested, hstands.2] at hrested
    | none =>
      have hopening := Opening.of_chose rt.endHold_chose
      have hlimits : rt.endHold.limits.isUnconstrained = true := by
        rw [hopening.limits]
        exact h
      rw [hheld] at hfirst
      dsimp only at hfirst
      rw [eligiblePick_of_limits hlimits hc] at hfirst
      cases hpick : rt.endHold.freePick roll nonce with
      | none =>
        rw [hpick] at hfirst
        cases hfirst
      | some sj =>
        rw [hpick] at hfirst
        obtain rfl := Option.some.inj hfirst
        exact hopening.fair_iff.mp (freePick_fair hpick)

end Choices

end PoolRuntime

/-! ## One series watched -/

/-- A series of more than one item, watched from where a lap begins: `opened` gave something in
that lap before. -/
structure Watch where
  series : List Series
  shelved : Shelved series
  place : ℕ
  opened : Finset String
  lt : place < series.length
  long : 1 < series[place].ids.length

namespace Watch

variable (w : Watch)

def label (i : ℕ) : String × List EntryId := ((w.series.map Series.label)[i]?).getD ("", [])

def own : List EntryId := (w.series.get ⟨w.place, w.lt⟩).ids

def start : ℕ := (w.series.get ⟨w.place, w.lt⟩).cursor

/-- How many items the watched series gave. -/
def drew (since : List EntryId) : ℕ := since.countP (w.own.contains ·)

/-- Every other series gave something. -/
def Others (since : List EntryId) : Prop :=
  ∀ i < w.series.length, i ≠ w.place → Given w.opened since (w.label i)

def Waits (since out : List EntryId) : Prop :=
  Waited w.own w.own.length w.start w.Others since out

end Watch

namespace Watch

variable {w : Watch} {since more : List EntryId}

theorem Others.append (h : w.Others since) (more : List EntryId) : w.Others (since ++ more) :=
  fun i hi hne => (h i hi hne).append more

theorem long_own (w : Watch) : 1 < w.own.length := w.long

theorem label_place (w : Watch) : (w.label w.place).2 = w.own := by
  rw [label, List.getElem?_map, List.getElem?_eq_getElem w.lt]
  rfl

/-- A pool that stands as the watch says after the draws `since`. -/
structure Tracks (w : Watch) (since : List EntryId) (rt : PoolRuntime) : Prop where
  inRange : InRange rt.series
  labels : rt.series.map Series.label = w.series.map Series.label
  limits : rt.limits.isUnconstrained = true
  resume : rt.cfg.advance = .resume
  cursor : (rt.nth w.place).cursor = (w.start + w.drew since) % w.own.length
  lap : ∀ i < w.series.length, (w.label i).1 ∈ rt.lap → Given w.opened since (w.label i)

namespace Tracks

variable {rt : PoolRuntime}

theorem length_eq (h : w.Tracks since rt) : rt.series.length = w.series.length := by
  have hlen := congrArg List.length h.labels
  rwa [List.length_map, List.length_map] at hlen

theorem label_eq (h : w.Tracks since rt) {i : ℕ} (hi : i < w.series.length) :
    (rt.nth i).label = w.label i := by
  have hlt : i < rt.series.length := by
    rw [h.length_eq]
    exact hi
  rw [label, ← h.labels, List.getElem?_map, PoolRuntime.exists_getElem? hlt]
  rfl

theorem ids_eq (h : w.Tracks since rt) : (rt.nth w.place).ids = w.own := by
  rw [← w.label_place, ← h.label_eq w.lt]
  rfl

theorem given_of_rested (h : w.Tracks since rt) {i : ℕ} (hi : i < w.series.length)
    (hrested : rt.rested i = true) : Given w.opened since (w.label i) := by
  rw [PoolRuntime.rested, Bool.and_eq_true, decide_eq_true_eq] at hrested
  have hkey : (rt.nth i).key = (w.label i).1 := congrArg Prod.fst (h.label_eq hi)
  exact h.lap i hi (hkey ▸ hrested.2)

/-- Where a resting series is the choice, every series gave something. -/
theorem others_of_rested (h : w.Tracks since rt) {c : ℕ} (hfair : rt.FairChoice c)
    (hrested : rt.rested c = true) : w.Others since := by
  intro i hi _
  have hlt : i < rt.series.length := by
    rw [h.length_eq]
    exact hi
  exact h.given_of_rested hi (hfair hrested i hlt)

theorem rested_place (h : w.Tracks since rt) (hfinished : (rt.nth w.place).finished = true)
    (hlap : (rt.nth w.place).key ∈ rt.lap) : rt.rested w.place = true := by
  have hlong : 1 < (rt.nth w.place).ids.length := by
    rw [h.ids_eq]
    exact w.long_own
  simp [PoolRuntime.rested, h.resume, hlong, hfinished, hlap]

end Tracks

/-- The watched series is at its top after giving something. -/
def Top (w : Watch) (since : List EntryId) (rt : PoolRuntime) : Prop :=
  (rt.nth w.place).cursor = 0 ∧ 0 < w.drew since

/-- Between visits: a watched series that ran out rests, unless the others all gave something. -/
structure Rests (w : Watch) (since : List EntryId) (rt : PoolRuntime) : Prop extends
    w.Tracks since rt where
  top : w.Top since rt → w.Others since ∨
    ((rt.nth w.place).finished = true ∧ (rt.nth w.place).key ∈ rt.lap)

/-- Inside a visit: it may have run out in this one and not be in the lap yet. -/
structure Marked (w : Watch) (since : List EntryId) (s : PoolRuntime.Serving) : Prop extends
    w.Tracks (since ++ s.out) s.rt where
  contributed : ∀ i, i ∈ s.contributed →
    i < w.series.length ∧ Given w.opened (since ++ s.out) (w.label i)
  top : w.Top (since ++ s.out) s.rt → w.Others (since ++ s.out) ∨
    ((s.rt.nth w.place).finished = true ∧
      ((s.rt.nth w.place).key ∈ s.rt.lap ∨ w.place ∈ s.contributed))

/-- What the pass on `c` knows about a watched series at its top: the others all gave something,
it rests, or the visit came round to `c` from it past series that gave something. -/
structure Next (w : Watch) (since : List EntryId) (s : PoolRuntime.Serving) (c : ℕ) : Prop where
  lt : c < w.series.length
  fair : s.rt.FairChoice c
  top : w.Top (since ++ s.out) s.rt → w.Others (since ++ s.out) ∨
    s.rt.rested w.place = true ∨ ∃ k, 0 < k ∧ c = (w.place + k) % w.series.length ∧
      Lib.Round w.series.length w.place
        (fun i => Given w.opened (since ++ s.out) (w.label i)) k

/-- A watched series at its top opens again only once the others all gave something. -/
theorem Next.others {s : PoolRuntime.Serving} (h : w.Marked since s)
    (hn : w.Next since s w.place) (htop : w.Top (since ++ s.out) s.rt) :
    w.Others (since ++ s.out) := by
  rcases hn.top htop with hothers | hrested | ⟨k, hk, hback, hround⟩
  · exact hothers
  · exact h.toTracks.others_of_rested hn.fair hrested
  · exact fun i hi hne => hround.full hk w.lt hback.symm hi hne

theorem drew_append (w : Watch) (since more : List EntryId) :
    w.drew (since ++ more) = w.drew since + w.drew more := List.countP_append

/-- No item of another series is the watched one's. -/
theorem foreign (w : Watch) {c : ℕ} (hc : c < w.series.length) (hne : c ≠ w.place) {x : EntryId}
    (hx : x ∈ (w.label c).2) : x ∉ w.own := by
  have hpair := List.pairwise_iff_getElem.mp w.shelved.disjoint
  rw [label, List.getElem?_map, List.getElem?_eq_getElem hc] at hx
  intro hown
  rcases Nat.lt_or_gt_of_ne hne with hless | hmore
  · exact hpair _ _ hc w.lt hless x hx hown
  · exact hpair _ _ w.lt hc hmore x hown hx

theorem drew_foreign (w : Watch) {c : ℕ} (hc : c < w.series.length) (hne : c ≠ w.place)
    {taken : List EntryId} (h : ∀ x ∈ taken, x ∈ (w.label c).2) : w.drew taken = 0 := by
  apply List.countP_eq_zero.mpr
  intro x hx hown
  exact w.foreign hc hne (h x hx) (List.contains_iff_mem.mp hown)

theorem drew_own (w : Watch) {taken : List EntryId} (h : ∀ x ∈ taken, x ∈ w.own) :
    w.drew taken = taken.length :=
  List.countP_eq_length.mpr fun x hx => List.contains_iff_mem.mpr (h x hx)

/-- What one pass on `c` takes. -/
structure Slice (s s' : PoolRuntime.Serving) (c : ℕ) (taken : List EntryId) : Prop where
  out : s'.out = s.out ++ taken
  ne : taken ≠ []
  mem : ∀ x ∈ taken, x ∈ (s.rt.nth c).ids
  fits : (s.rt.nth c).cursor + taken.length ≤ (s.rt.nth c).ids.length
  series : s'.rt.series =
    s.rt.series.set c ((s.rt.nth c).advanceTo ((s.rt.nth c).cursor + taken.length))
  lap : s'.rt.lap = s.rt.lap
  moved : s.rt.Moved s'.rt
  contributed : ∀ i, i ∈ s'.contributed ↔ i = c ∨ i ∈ s.contributed

theorem pass_slice {cat : Catalog} {take c : ℕ} {s : PoolRuntime.Serving}
    (hr : InRange s.rt.series) (hc : c < s.rt.series.length) (hneed : s.out.length < take) :
    Slice s (s.pass cat take c) c (s.rt.takeFrom c (take - s.out.length)).1 := by
  have hget := PoolRuntime.exists_getElem? hc
  have hcursor := hr _ (List.mem_of_getElem? hget)
  have hwant : 0 < take - s.out.length := Nat.sub_pos_of_lt hneed
  obtain ⟨hcont, -, -⟩ := PoolRuntime.pass_continues cat hr hc hneed
  obtain ⟨hne, -⟩ := PoolRuntime.takeFrom_drew hget hcursor hwant
  have htaken : (s.rt.takeFrom c (take - s.out.length)).1 =
      ((s.rt.nth c).ids.drop (s.rt.nth c).cursor).take
        (min (take - s.out.length) (s.rt.nth c).remaining) := rfl
  have hlen : (s.rt.takeFrom c (take - s.out.length)).1.length =
      min (take - s.out.length) (s.rt.nth c).remaining := by
    rw [htaken, List.length_take, List.length_drop]
    simp only [Series.remaining]
    omega
  refine ⟨rfl, hne, ?_, ?_, ?_, ?_, hcont.moved, ?_⟩
  · intro x hx
    rw [htaken] at hx
    exact List.mem_of_mem_drop (List.mem_of_mem_take hx)
  · rw [hlen]
    simp only [Series.remaining]
    omega
  · have hseries := @PoolRuntime.takeFrom_series s.rt c (take - s.out.length) _ hget
    have hpass : (s.pass cat take c).rt.series =
        (s.rt.takeFrom c (take - s.out.length)).2.series := PoolRuntime.remember_series _ _
    rw [hpass, hseries, hlen]
  · have hremember : ∀ (rt : PoolRuntime) ids, (rt.remember ids).lap = rt.lap := by
      intro rt ids
      unfold PoolRuntime.remember
      split_ifs
      · rfl
      · rfl
    exact hremember _ _
  · intro i
    exact AList.mem_insert _

section Pass

variable {s s' : PoolRuntime.Serving} {c : ℕ} {taken : List EntryId}

theorem Slice.nth_other (h : Slice s s' c taken) {i : ℕ} (hi : i ≠ c) :
    s'.rt.nth i = s.rt.nth i := by
  rw [PoolRuntime.nth, PoolRuntime.nth, h.series, List.getD_eq_getElem?_getD,
    List.getD_eq_getElem?_getD, List.getElem?_set_ne (Ne.symm hi)]

theorem Slice.nth_self (h : Slice s s' c taken) (hc : c < s.rt.series.length) :
    s'.rt.nth c = (s.rt.nth c).advanceTo ((s.rt.nth c).cursor + taken.length) := by
  rw [PoolRuntime.nth, h.series, List.getD_eq_getElem?_getD, List.getElem?_set_self hc]
  rfl

variable (h : w.Marked since s) (hn : w.Next since s c) (hs : Slice s s' c taken)

include h hn hs

theorem Slice.labelled : ∀ x ∈ taken, x ∈ (w.label c).2 := by
  intro x hx
  rw [← h.toTracks.label_eq hn.lt]
  exact hs.mem x hx

omit hs in
theorem Slice.place_lt : c < s.rt.series.length := by
  rw [h.toTracks.length_eq]
  exact hn.lt

/-- The pass opens the watched series again only once the others all gave something. -/
theorem Marked.waits : w.Waits (since ++ s.out) taken := by
  have hmem := Slice.labelled h hn hs
  by_cases hplace : c = w.place
  · subst hplace
    have hcursor := h.cursor
    have hfits := hs.fits
    rw [h.toTracks.ids_eq, hcursor] at hfits
    rw [w.label_place] at hmem
    have hopens : (w.start + w.drew (since ++ s.out)) % w.own.length = 0 →
        0 < w.drew (since ++ s.out) → w.Others (since ++ s.out) :=
      fun hzero hpos => hn.others h ⟨hcursor.trans hzero, hpos⟩
    exact Waited.of_slice hmem hfits hopens
  · exact Waited.of_foreign fun x hx => w.foreign hn.lt hplace (hmem x hx)

theorem Marked.tracks_pass : w.Tracks (since ++ s'.out) s'.rt := by
  have hmem := Slice.labelled h hn hs
  have hc := Slice.place_lt h hn
  have hget := PoolRuntime.exists_getElem? hc
  have hcur := h.inRange _ (List.mem_of_getElem? hget)
  have hne := List.ne_nil_of_length_pos (Nat.zero_lt_of_lt hcur)
  constructor
  · rw [hs.series]
    exact h.inRange.set (Series.advanceTo_cursor_lt hne _)
  · have hsame : ((s.rt.nth c).advanceTo ((s.rt.nth c).cursor + taken.length)).label =
        (s.rt.nth c).label := rfl
    rw [hs.series]
    exact (PoolRuntime.set_label hget hsame).trans h.labels
  · obtain ⟨_, _, _, _, _, _, _, _, heq, -⟩ := hs.moved
    rw [heq]
    exact h.limits
  · rw [hs.moved.cfg_eq]
    exact h.resume
  · rw [hs.out, ← List.append_assoc, drew_append]
    by_cases hplace : c = w.place
    · subst hplace
      have hown : ∀ x ∈ taken, x ∈ w.own := by
        rw [← w.label_place]
        exact hmem
      have hfits := hs.fits
      rw [h.toTracks.ids_eq] at hfits
      have hsum : (w.start + (w.drew (since ++ s.out) + taken.length)) % w.own.length =
          ((s.rt.nth w.place).cursor + taken.length) % w.own.length := by
        rw [h.cursor, Nat.mod_add_mod, Nat.add_assoc]
      rw [hs.nth_self hc, w.drew_own hown, hsum]
      simp only [Series.advanceTo, h.toTracks.ids_eq]
      split_ifs with hwrap
      · rw [Nat.le_antisymm hfits hwrap, Nat.mod_self]
      · rw [Nat.mod_eq_of_lt (Nat.lt_of_not_le hwrap)]
    · rw [hs.nth_other (Ne.symm hplace), w.drew_foreign hn.lt hplace hmem, Nat.add_zero]
      exact h.cursor
  · intro i hi hlap
    rw [hs.lap] at hlap
    rw [hs.out, ← List.append_assoc]
    exact (h.lap i hi hlap).append taken

/-- A pass on another series leaves the watched one as it was. -/
theorem Slice.top_before (hplace : c ≠ w.place) (htop : w.Top (since ++ s'.out) s'.rt) :
    w.Top (since ++ s.out) s.rt := by
  have hmem := Slice.labelled h hn hs
  have hsame := hs.nth_other (Ne.symm hplace)
  obtain ⟨hzero, hpos⟩ := htop
  rw [hs.out, ← List.append_assoc, drew_append, w.drew_foreign hn.lt hplace hmem] at hpos
  exact ⟨hsame ▸ hzero, hpos⟩

theorem Marked.pass : w.Marked since s' := by
  have hmem := Slice.labelled h hn hs
  have hc := Slice.place_lt h hn
  have htracks := Marked.tracks_pass h hn hs
  refine ⟨htracks, ?_, ?_⟩
  · intro i hi
    rw [hs.out, ← List.append_assoc]
    rcases (hs.contributed i).mp hi with rfl | hold
    · obtain ⟨x, hx⟩ := List.exists_mem_of_ne_nil _ hs.ne
      exact ⟨hn.lt, Or.inl ⟨x, List.mem_append_right _ hx, hmem x hx⟩⟩
    · obtain ⟨hlt, hgiven⟩ := h.contributed i hold
      exact ⟨hlt, hgiven.append taken⟩
  · intro htop
    by_cases hplace : c = w.place
    · subst hplace
      right
      refine ⟨?_, Or.inr ((hs.contributed _).mpr (Or.inl rfl))⟩
      have hzero := htop.1
      have hpos := List.length_pos_iff.mpr hs.ne
      rw [hs.nth_self hc] at hzero ⊢
      simp only [Series.advanceTo] at hzero ⊢
      split_ifs at hzero with hwrap
      · exact decide_eq_true hwrap
      · omega
    · have hsame := hs.nth_other (Ne.symm hplace)
      have hbefore := Slice.top_before h hn hs hplace htop
      rw [hs.out, ← List.append_assoc, hsame, hs.lap, hs.contributed]
      rcases h.top hbefore with hothers | ⟨hfinished, hmark⟩
      · exact Or.inl (hothers.append taken)
      · exact Or.inr ⟨hfinished, hmark.imp_right Or.inr⟩

/-- The first series after `c` that need not rest is the next one's turn. -/
theorem Marked.next {next : ℕ}
    (hnext : s'.rt.freeFrom ((c + 1) % w.series.length) = next) : w.Next since s' next := by
  have hmarked := Marked.pass h hn hs
  have hlength := hmarked.toTracks.length_eq
  have hpos : 0 < w.series.length := Nat.zero_lt_of_lt w.lt
  have hstart : (c + 1) % w.series.length < s'.rt.series.length := by
    rw [hlength]
    exact Nat.mod_lt _ hpos
  obtain ⟨j, hj, hpassed, hfair⟩ := PoolRuntime.freeFrom_spec hstart
  rw [hnext, hlength] at hj
  rw [hnext] at hfair
  have hgiven : ∀ i < j, Given w.opened (since ++ s'.out)
      (w.label (((c + 1) % w.series.length + i) % w.series.length)) := by
    intro i hi
    have hrested := hpassed i hi
    rw [hlength] at hrested
    exact hmarked.toTracks.given_of_rested (Nat.mod_lt _ hpos) hrested
  refine ⟨?_, hfair, ?_⟩
  · rw [hj]
    exact Nat.mod_lt _ hpos
  intro htop
  by_cases hplace : c = w.place
  · have hc : c = (w.place + 0) % w.series.length := by
      rw [Nat.add_zero, Nat.mod_eq_of_lt w.lt, hplace]
    have hround : Lib.Round w.series.length w.place
        (fun i => Given w.opened (since ++ s'.out) (w.label i)) 0 :=
      fun i _ hi => absurd hi (Nat.not_lt_zero i)
    refine Or.inr (Or.inr ⟨0 + 1 + j, by omega, ?_, hround.on hc (Or.inl rfl) hgiven⟩)
    rw [hj]
    exact Lib.Round.reach hc
  · rcases hn.top (Slice.top_before h hn hs hplace htop) with hothers | hrested | ⟨k, hk, hc, hround⟩
    · rw [hs.out, ← List.append_assoc]
      exact Or.inl (hothers.append taken)
    · have hsame : s'.rt.rested w.place = s.rt.rested w.place := by
        rw [PoolRuntime.rested, PoolRuntime.rested, hs.nth_other (Ne.symm hplace), hs.lap,
          hs.moved.cfg_eq]
      exact Or.inr (Or.inl (hsame.trans hrested))
    · have hat : Given w.opened (since ++ s'.out) (w.label c) := by
        obtain ⟨x, hx⟩ := List.exists_mem_of_ne_nil _ hs.ne
        have hmem := Slice.labelled h hn hs x hx
        rw [hs.out, ← List.append_assoc]
        exact Or.inl ⟨x, List.mem_append_right _ hx, hmem⟩
      have hmono : Lib.Round w.series.length w.place
          (fun i => Given w.opened (since ++ s'.out) (w.label i)) k := by
        rw [hs.out, ← List.append_assoc]
        exact hround.mono fun i hi => hi.append taken
      refine Or.inr (Or.inr ⟨k + 1 + j, by omega, ?_, hmono.on hc (Or.inr hat) hgiven⟩)
      rw [hj]
      exact Lib.Round.reach hc

end Pass

section Serve

variable {cat : Catalog} {rt rt' : PoolRuntime} {roll : RollKey} {ch ch' : ChannelHistory}
  {out : List EntryId}

/-- A visit's passes, one after the other. -/
theorem serveLoop_marked {take c : ℕ} (passes : ℕ) {s : PoolRuntime.Serving}
    (h : w.Marked since s) (hn : w.Next since s c) (hc : s.channel.isUnconstrained = true)
    (hshort : s.rt.cfg.onShort ≠ .wrap) (hneed : s.out.length < take) :
    ∃ drawn, (PoolRuntime.serveLoop cat take passes (some c) s).out = s.out ++ drawn ∧
      w.Waits (since ++ s.out) drawn ∧
      w.Marked since (PoolRuntime.serveLoop cat take passes (some c) s) := by
  induction passes generalizing s c with
  | zero =>
    exact ⟨[], (List.append_nil _).symm, Waited.of_foreign (by simp), h⟩
  | succ passes ih =>
    have hlt := Slice.place_lt h hn
    have hs := @pass_slice cat take c s h.inRange hlt hneed
    have hmarked := Marked.pass h hn hs
    have hwaits := Marked.waits h hn hs
    rw [PoolRuntime.serveLoop_pass cat passes h.inRange hlt hneed]
    by_cases hdone : take ≤ (s.pass cat take c).out.length
    · rw [if_pos hdone]
      exact ⟨_, hs.out, hwaits, hmarked⟩
    · rw [if_neg hdone]
      have hchannel : (s.pass cat take c).channel = s.channel :=
        ChannelHistory.remember_of_unconstrained hc cat _
      have hturn := PoolRuntime.shortTurn_of_limits hmarked.limits (hchannel.symm ▸ hc) c
      have hturned : (s.pass cat take c).turned c = s.pass cat take c := by
        rw [PoolRuntime.Serving.turned, hturn]
      rw [hturned, hturn]
      have hcfg := hs.moved.cfg_eq
      cases honShort : s.rt.cfg.onShort with
      | wrap => exact absurd honShort hshort
      | short =>
        have hstop : (s.pass cat take c).rt.freeTurn c = none := by
          rw [PoolRuntime.freeTurn, hcfg, honShort]
        rw [hstop]
        cases passes with
        | zero => exact ⟨_, hs.out, hwaits, hmarked⟩
        | succ n => exact ⟨_, hs.out, hwaits, hmarked⟩
      | next =>
        have hafter : (s.pass cat take c).rt.seriesAfter c =
            some ((c + 1) % w.series.length) := by
          have hpassLt : c < (s.pass cat take c).rt.series.length := by
            rw [hmarked.toTracks.length_eq]
            exact hn.lt
          rw [PoolRuntime.seriesAfter_eq hpassLt, hmarked.toTracks.length_eq]
        have hnext : (s.pass cat take c).rt.freeTurn c =
            some ((s.pass cat take c).rt.freeFrom ((c + 1) % w.series.length)) := by
          rw [PoolRuntime.freeTurn, hcfg, honShort, hafter]
          rfl
        rw [hnext]
        have hn' := Marked.next h hn hs rfl
        obtain ⟨drawn, hout, hrest, hlast⟩ := ih hmarked hn' (hchannel.symm ▸ hc)
          (hcfg.symm ▸ hshort) (Nat.lt_of_not_le hdone)
        rw [hs.out, ← List.append_assoc] at hrest
        refine ⟨(s.rt.takeFrom c (take - s.out.length)).1 ++ drawn, ?_, hwaits.append hrest, hlast⟩
        rw [hout, hs.out, List.append_assoc]

theorem label_inj (w : Watch) {i j : ℕ} (hi : i < w.series.length) (hj : j < w.series.length)
    (h : (w.label i).1 = (w.label j).1) : i = j := by
  have hkey : ∀ {k : ℕ} (hk : k < w.series.length),
      (w.series.map (·.key))[k]? = some (w.label k).1 := by
    intro k hk
    rw [label, List.getElem?_map, List.getElem?_map, List.getElem?_eq_getElem hk]
    rfl
  have hlt : i < (w.series.map (·.key)).length := by
    rw [List.length_map]
    exact hi
  apply (List.getElem?_inj hlt w.shelved.keys_nodup).mp
  rw [hkey hi, hkey hj, h]

theorem Rests.opening (h : w.Rests since rt) {rt₁ : PoolRuntime} (ho : rt.Opening rt₁) :
    w.Rests since rt₁ := by
  have hnth : rt₁.nth w.place = rt.nth w.place := by
    rw [PoolRuntime.nth, PoolRuntime.nth, ho.series]
  refine ⟨⟨?_, ?_, ?_, ?_, ?_, ?_⟩, ?_⟩
  · rw [ho.series]
    exact h.inRange
  · rw [ho.series]
    exact h.labels
  · rw [ho.limits]
    exact h.limits
  · rw [ho.cfg]
    exact h.resume
  · rw [hnth]
    exact h.cursor
  · rw [ho.lap]
    exact h.lap
  · unfold Top
    rw [hnth, ho.lap]
    exact h.top

theorem finish_lap (s : PoolRuntime.Serving) (from_ : TakeFrom) (first : Option ℕ) (take : ℕ) :
    (s.finish from_ first take).2.1.lap =
      (s.rt.noteLap s.contributed.keys).lap := by
  have hhold : ∃ hold, s.rt.passHold first s.last = { s.rt with hold } := by
    unfold PoolRuntime.passHold
    split
    · split_ifs
      · exact ⟨_, rfl⟩
      · exact ⟨_, rfl⟩
    · exact ⟨_, rfl⟩
  have hpark : ∀ (rt : PoolRuntime), (rt.park s.last s.contributed take).lap = rt.lap := by
    intro rt
    unfold PoolRuntime.park
    split
    · rfl
    · rfl
  obtain ⟨hold, heq⟩ := hhold
  rw [PoolRuntime.Serving.finish, heq]
  dsimp only
  rw [hpark]
  rfl

section Finish

variable {s : PoolRuntime.Serving} (h : w.Marked since s)

include h

/-- Who a visit's end finds in the lap gave something. -/
theorem Marked.given_of_noted {i : ℕ} (hi : i < w.series.length)
    (hnoted : (w.label i).1 ∈ s.rt.lap ∪
      (s.contributed.keys.map fun si => (s.rt.nth si).key).toFinset) :
    Given w.opened (since ++ s.out) (w.label i) := by
  rcases Finset.mem_union.mp hnoted with hlap | hgave
  · exact h.lap i hi hlap
  · obtain ⟨j, hj, hkey⟩ := List.mem_map.mp (List.mem_toFinset.mp hgave)
    obtain ⟨hjlt, hgiven⟩ := h.contributed j (AList.mem_keys.mpr hj)
    have hlabel : (s.rt.nth j).key = (w.label j).1 := congrArg Prod.fst (h.toTracks.label_eq hjlt)
    rw [hlabel] at hkey
    rw [w.label_inj hi hjlt hkey.symm]
    exact hgiven

theorem Marked.finish (from_ : TakeFrom) (first : Option ℕ) (take : ℕ) :
    w.Rests (since ++ s.out) (s.finish from_ first take).2.1 := by
  have hseries := PoolRuntime.Serving.finish_series s from_ first take
  have hmoved := PoolRuntime.Serving.finish_moved s from_ first take
  have hlap := finish_lap s from_ first take
  have hnth : (s.finish from_ first take).2.1.nth w.place = s.rt.nth w.place := by
    rw [PoolRuntime.nth, PoolRuntime.nth, hseries]
  have hkey : (s.rt.nth w.place).key = (w.label w.place).1 :=
    congrArg Prod.fst (h.toTracks.label_eq w.lt)
  rw [PoolRuntime.noteLap] at hlap
  dsimp only at hlap
  refine ⟨⟨?_, ?_, ?_, ?_, ?_, ?_⟩, ?_⟩
  · rw [hseries]
    exact h.inRange
  · rw [hseries]
    exact h.labels
  · obtain ⟨_, _, _, _, _, _, _, _, heq, -⟩ := hmoved
    rw [heq]
    exact h.limits
  · rw [hmoved.cfg_eq]
    exact h.resume
  · rw [hnth]
    exact h.cursor
  · intro i hi hmem
    rw [hlap] at hmem
    split_ifs at hmem
    · exact absurd hmem (Finset.notMem_empty _)
    · exact h.given_of_noted hi hmem
  · intro htop
    have hbefore : w.Top (since ++ s.out) s.rt := by
      unfold Top at htop
      rwa [hnth] at htop
    rw [hnth, hlap]
    split_ifs with hall
    · left
      intro i hi _
      apply h.given_of_noted hi
      have hlt : i < s.rt.series.length := by
        rw [h.toTracks.length_eq]
        exact hi
      have hmem := List.mem_of_getElem? (PoolRuntime.exists_getElem? hlt)
      have hnoted := of_decide_eq_true (List.all_eq_true.mp hall _ hmem)
      have hlabel : (s.rt.nth i).key = (w.label i).1 := congrArg Prod.fst (h.toTracks.label_eq hi)
      rwa [hlabel] at hnoted
    · rcases h.top hbefore with hothers | ⟨hfinished, hmark⟩
      · exact Or.inl hothers
      · refine Or.inr ⟨hfinished, Finset.mem_union.mpr ?_⟩
        rcases hmark with hlapped | hgave
        · exact Or.inl hlapped
        · refine Or.inr (List.mem_toFinset.mpr (List.mem_map.mpr ⟨w.place, ?_, rfl⟩))
          exact AList.mem_keys.mp hgave

end Finish

theorem Rests.marked (h : w.Rests since rt) (ch : ChannelHistory) :
    w.Marked since { rt, channel := ch } := by
  have hempty : ∀ i, i ∉ ({ rt, channel := ch } : PoolRuntime.Serving).contributed :=
    fun i hi => absurd hi (AList.notMem_empty _)
  have hsince : since ++ ({ rt, channel := ch } : PoolRuntime.Serving).out = since :=
    List.append_nil _
  refine ⟨?_, fun i hi => absurd hi (hempty i), ?_⟩
  · rw [hsince]
    exact h.toTracks
  · rw [hsince]
    intro htop
    rcases h.top htop with hothers | ⟨hfinished, hlap⟩
    · exact Or.inl hothers
    · exact Or.inr ⟨hfinished, Or.inl hlap⟩

/-- A visit that draws nothing clears the mark of a series that ran out; it only opens on one
that need not rest. -/
theorem Rests.settled (h : w.Rests since rt) {si : ℕ} (hsi : si < rt.series.length)
    (hfair : rt.FairChoice si) (ch : ChannelHistory) :
    w.Marked since { rt := (rt.takeFrom si 0).2, channel := ch } := by
  have hget := PoolRuntime.exists_getElem? hsi
  have hcursor := h.inRange _ (List.mem_of_getElem? hget)
  have hne := List.ne_nil_of_length_pos (Nat.zero_lt_of_lt hcursor)
  have hseries := @PoolRuntime.takeFrom_series rt si 0 _ hget
  rw [Nat.zero_min, Nat.add_zero] at hseries
  have hlabel : ((rt.nth si).advanceTo (rt.nth si).cursor).label = (rt.nth si).label := rfl
  have hother : si ≠ w.place → (rt.takeFrom si 0).2.nth w.place = rt.nth w.place := by
    intro hne
    rw [PoolRuntime.nth, PoolRuntime.nth, hseries, List.getD_eq_getElem?_getD,
      List.getD_eq_getElem?_getD, List.getElem?_set_ne hne]
  have hself : (rt.takeFrom si 0).2.nth si = (rt.nth si).advanceTo (rt.nth si).cursor := by
    rw [PoolRuntime.nth, hseries, List.getD_eq_getElem?_getD, List.getElem?_set_self hsi]
    rfl
  have hplace : ((rt.takeFrom si 0).2.nth w.place).cursor = (rt.nth w.place).cursor := by
    by_cases heq : si = w.place
    · rw [← heq, hself]
      simp only [Series.advanceTo, Nat.not_le.mpr hcursor, if_false]
    · rw [hother heq]
  have hmarked := h.marked ch
  have hsince : since ++ ({ rt := (rt.takeFrom si 0).2, channel := ch } :
      PoolRuntime.Serving).out = since := List.append_nil _
  refine ⟨?_, ?_, ?_⟩
  · rw [hsince]
    refine ⟨?_, ?_, h.limits, h.resume, ?_, h.lap⟩
    · rw [hseries]
      exact h.inRange.set (Series.advanceTo_cursor_lt hne _)
    · rw [hseries]
      exact (PoolRuntime.set_label hget hlabel).trans h.labels
    · rw [hplace]
      exact h.cursor
  · exact fun i hi => absurd hi (AList.notMem_empty _)
  · rw [hsince]
    intro htop
    have hbefore : w.Top since rt := ⟨hplace ▸ htop.1, htop.2⟩
    rcases h.top hbefore with hothers | ⟨hfinished, hlap⟩
    · exact Or.inl hothers
    · by_cases heq : si = w.place
      · left
        have hrested := h.toTracks.rested_place hfinished hlap
        rw [← heq] at hrested
        exact h.toTracks.others_of_rested hfair hrested
      · right
        rw [hother heq]
        exact ⟨hfinished, Or.inl hlap⟩

theorem Rests.serveDraws (h : w.Rests since rt) (hc : ch.isUnconstrained = true)
    (hshort : rt.cfg.onShort ≠ .wrap) {first : Option ℕ}
    (hfirst : ∀ si, first = some si → si < rt.series.length ∧ rt.FairChoice si) (take : ℕ)
    (nonce : UInt64) :
    w.Waits since (rt.serveDraws cat .start first take roll nonce ch).1 ∧
      w.Rests (since ++ (rt.serveDraws cat .start first take roll nonce ch).1)
        (rt.serveDraws cat .start first take roll nonce ch).2.1 := by
  cases first with
  | none => exact ⟨Waited.of_foreign (by simp [PoolRuntime.serveDraws_none]), (h.marked ch).finish _ _ _⟩
  | some si =>
    obtain ⟨hlt, hfair⟩ := hfirst si rfl
    cases take with
    | zero =>
      have hdraws : rt.serveDraws cat .start (some si) 0 roll nonce ch =
          PoolRuntime.Serving.finish { rt := (rt.takeFrom si 0).2, channel := ch } .start
            (some si) 0 := by
        have hempty : (rt.takeFrom si 0).1 = [] := by
          simp only [PoolRuntime.takeFrom, Nat.zero_min, List.take_zero]
        simp only [PoolRuntime.serveDraws, PoolRuntime.placeCursor, PoolRuntime.serveLoop,
          List.length_nil, Nat.sub_zero, hempty, List.isEmpty_nil, if_true]
      rw [hdraws]
      exact ⟨Waited.of_foreign (by simp [PoolRuntime.Serving.finish]),
        (h.settled hlt hfair ch).finish _ _ _⟩
    | succ n =>
      have hlength := h.toTracks.length_eq
      have hnext : w.Next since { rt, channel := ch } si := by
        refine ⟨hlength ▸ hlt, hfair, fun htop => ?_⟩
        have hsince : since ++ ({ rt, channel := ch } : PoolRuntime.Serving).out = since :=
          List.append_nil _
        rw [hsince] at htop ⊢
        rcases h.top htop with hothers | ⟨hfinished, hlap⟩
        · exact Or.inl hothers
        · exact Or.inr (Or.inl (h.toTracks.rested_place hfinished hlap))
      obtain ⟨drawn, hout, hwaits, hlast⟩ := @serveLoop_marked w since cat (n + 1) si
        (n + 1 + rt.series.length + 1) { rt, channel := ch } (h.marked ch) hnext hc hshort
        (Nat.succ_pos n)
      have hdrawn : (rt.serveDraws cat .start (some si) (n + 1) roll nonce ch).1 = drawn := hout
      refine ⟨?_, hlast.finish .start (some si) (n + 1)⟩
      rw [hdrawn]
      simpa using hwaits

theorem Rests.serve (h : w.Rests since rt) (hc : ch.isUnconstrained = true)
    (hshort : rt.cfg.onShort ≠ .wrap) {want : Draw} {nonce : UInt64} {done : ℕ}
    (hserve : rt.serve cat want .start roll nonce done ch = .ok (out, rt', ch')) :
    w.Waits since out ∧ w.Rests (since ++ out) rt' := by
  have hchose := rt.firstSeries_chose roll nonce ch
  have hopening := PoolRuntime.Opening.of_chose hchose
  have hopened := h.opening hopening
  rcases PoolRuntime.serve_cases hserve with ⟨-, rfl, rfl⟩ | ⟨take, -, heq⟩
  · rw [List.append_nil]
    exact ⟨Waited.of_foreign (by simp), hopened⟩
  · have hchannel : (rt.firstSeries roll nonce ch).2.2.isUnconstrained = true := by
      rw [ChannelHistory.isUnconstrained, (PoolRuntime.firstSeries_grew rt roll nonce ch).1]
      exact hc
    have hfirst : ∀ si, (rt.firstSeries roll nonce ch).1 = some si →
        si < (rt.firstSeries roll nonce ch).2.1.series.length ∧
          (rt.firstSeries roll nonce ch).2.1.FairChoice si := by
      intro si hsi
      rw [hopening.series]
      exact ⟨PoolRuntime.firstSeries_lt hsi,
        hopening.fair_iff.mpr (PoolRuntime.firstSeries_fair h.limits hc hsi)⟩
    have hdraws := @Rests.serveDraws w since cat _ roll _ hopened hchannel
      (hopening.cfg.symm ▸ hshort) _ hfirst take nonce
    rw [← heq] at hdraws
    exact hdraws

end Serve

end Watch

namespace PoolRuntime

/-! ## Walks -/

/-- One serving, a visit or a slot of one: what it drew and the lap after it. -/
structure Turn where
  out : List EntryId
  lap : Finset String

def drawnOver (turns : List Turn) : List EntryId := turns.flatMap (·.out)

/-- Turn after turn from the series' start, under no channel rule. -/
inductive Serves : PoolRuntime → List Turn → PoolRuntime → Prop
  | nil (rt : PoolRuntime) (period : Option (ℤ × ℤ)) (visitResumable : Bool) :
      Serves rt [] { rt with period, visitResumable }
  | cons {cat : Catalog} {rt rt' rt'' : PoolRuntime} {period : Option (ℤ × ℤ)}
      {visitResumable : Bool} {want : Draw} {roll : RollKey} {nonce : UInt64} {done : ℕ}
      {ch ch' : ChannelHistory} {out : List EntryId} {turns : List Turn}
      (hc : ch.isUnconstrained = true)
      (hserve : PoolRuntime.serve cat { rt with period, visitResumable } want .start roll nonce
        done ch = .ok (out, rt', ch'))
      (hrest : Serves rt' turns rt'') : Serves rt (⟨out, rt'.lap⟩ :: turns) rt''

namespace Serves

variable {rt rt' rt'' : PoolRuntime} {turns turns' : List Turn}

theorem of_fields {period : Option (ℤ × ℤ)} {visitResumable : Bool}
    (h : Serves { rt with period, visitResumable } turns rt') : Serves rt turns rt' := by
  generalize hstart : ({ rt with period, visitResumable } : PoolRuntime) = start at h
  cases h with
  | nil start period' resumable' =>
    rw [← hstart]
    exact .nil rt period' resumable'
  | cons hc hserve hrest =>
    rw [← hstart] at hserve
    exact .cons hc hserve hrest

theorem trans (h : Serves rt turns rt') (h' : Serves rt' turns' rt'') :
    Serves rt (turns ++ turns') rt'' := by
  induction h with
  | nil => exact h'.of_fields
  | cons hc hserve hrest ih => exact .cons hc hserve (ih h')

theorem split (h : Serves rt (turns ++ turns') rt'') :
    ∃ mid, Serves rt turns mid ∧ Serves mid turns' rt'' := by
  induction turns generalizing rt with
  | nil => exact ⟨rt, .nil rt rt.period rt.visitResumable, h⟩
  | cons t turns ih =>
    rw [List.cons_append] at h
    cases h with
    | cons hc hserve hrest =>
      obtain ⟨mid, hfirst, hlast⟩ := ih hrest
      exact ⟨mid, .cons hc hserve hfirst, hlast⟩

theorem cfg_eq (h : Serves rt turns rt') : rt'.cfg = rt.cfg := by
  induction h with
  | nil => rfl
  | cons hc hserve hrest ih =>
    have hcfg := serve_cfg _ hserve
    exact ih.trans hcfg

theorem lap_eq (h : Serves rt turns rt') :
    rt'.lap = (turns.getLast?.map (·.lap)).getD rt.lap := by
  induction h with
  | nil => rfl
  | @cons cat rt rt₁ rt₂ period visitResumable want roll nonce done ch ch' out turns hc hserve hrest
      ih =>
    rw [ih]
    cases turns with
    | nil => rfl
    | cons t turns => rw [List.getLast?_cons_cons, List.getLast?_cons]; rfl

/-- A watched series waits, turn after turn. -/
theorem waits {w : Watch} {since : List EntryId} (h : Serves rt turns rt')
    (hrests : w.Rests since rt) (hshort : rt.cfg.onShort ≠ .wrap) :
    w.Waits since (drawnOver turns) ∧ w.Rests (since ++ drawnOver turns) rt' := by
  induction h generalizing since with
  | nil rt period visitResumable =>
    rw [drawnOver, List.flatMap_nil, List.append_nil]
    exact ⟨Waited.of_foreign (by simp), hrests.opening ⟨rfl, rfl, rfl, rfl⟩⟩
  | @cons cat rt rt₁ rt₂ period visitResumable want roll nonce done ch ch' out turns hc hserve hrest
      ih =>
    have hopen : w.Rests since { rt with period, visitResumable } :=
      hrests.opening ⟨rfl, rfl, rfl, rfl⟩
    obtain ⟨hwaits, hafter⟩ := hopen.serve hc hshort hserve
    have hcfg := serve_cfg cat hserve
    obtain ⟨hwaits', hlast⟩ := ih hafter (hcfg.symm ▸ hshort)
    rw [drawnOver, List.flatMap_cons]
    rw [List.append_assoc] at hlast
    exact ⟨hwaits.append hwaits', hlast⟩

end Serves

section Visits

variable {cat : Catalog} {rt rt' : PoolRuntime} {roll : RollKey} {ch ch' : ChannelHistory}
  {out : List EntryId}

theorem serveSlots_serves {left slot : ℕ} {out out' : List EntryId}
    (hc : ch.isUnconstrained = true)
    (h : serveSlots cat .start roll left slot out rt ch = .ok (out', rt', ch')) :
    ∃ turns, Serves rt turns rt' ∧ out' = out ++ drawnOver turns := by
  induction left generalizing slot rt ch out with
  | zero =>
    simp only [serveSlots, Except.ok.injEq, Prod.mk.injEq] at h
    obtain ⟨rfl, rfl, -⟩ := h
    exact ⟨[], .nil rt rt.period rt.visitResumable, (List.append_nil _).symm⟩
  | succ left ih =>
    rw [serveSlots] at h
    split_ifs at h
    · simp only [Except.ok.injEq, Prod.mk.injEq] at h
      obtain ⟨rfl, rfl, -⟩ := h
      exact ⟨[], .nil rt rt.period rt.visitResumable, (List.append_nil _).symm⟩
    · obtain ⟨⟨ids, rt₁, ch₁⟩, hone, h⟩ := Lib.bind_eq_ok.mp h
      have hchannel : ch₁.isUnconstrained = true := by
        rw [ChannelHistory.isUnconstrained, (serve_grew hone).1]
        exact hc
      obtain ⟨turns, hserves, rfl⟩ := ih hchannel h
      have hserve : PoolRuntime.serve cat
          { rt with period := rt.period, visitResumable := rt.visitResumable } (.count 1) .start
          roll (UInt64.ofNat slot) 0 ch = .ok (ids, rt₁, ch₁) := hone
      exact ⟨⟨ids, rt₁.lap⟩ :: turns, .cons hc hserve hserves, List.append_assoc _ _ _⟩

/-- A visit is a run of servings. -/
theorem visit_serves {take : Take} {done : ℕ} (hc : ch.isUnconstrained = true)
    (h : rt.visit cat take .start roll done ch = .ok (out, rt', ch')) :
    ∃ turns, Serves rt turns rt' ∧ out = drawnOver turns := by
  rcases visit_cases h with ⟨-, rfl, rfl⟩ | ⟨-, rt₁, hslots, rfl⟩ | ⟨-, hserve⟩
  · exact ⟨[], .nil rt rt.period false, rfl⟩
  · obtain ⟨turns, hserves, rfl⟩ := serveSlots_serves hc hslots
    have hrun : Serves rt turns rt₁ := Serves.of_fields hserves
    have hclosed := hrun.trans (.nil rt₁ rt₁.period false)
    rw [List.append_nil] at hclosed
    exact ⟨turns, hclosed, rfl⟩
  · have hopen : PoolRuntime.serve cat { rt with period := rt.period, visitResumable := false }
        (resolveTake take roll) .start roll 0 done ch = .ok (out, rt', ch') := hserve
    refine ⟨[⟨out, rt'.lap⟩], .cons hc hopen (.nil rt' rt'.period rt'.visitResumable), ?_⟩
    exact (List.append_nil out).symm

theorem Visits.serves
    (h : Visits (fun from_ ch => from_ = .start ∧ ch.isUnconstrained = true) rt out rt') :
    ∃ turns, Serves rt turns rt' ∧ out = drawnOver turns := by
  induction h with
  | nil rt => exact ⟨[], .nil rt rt.period rt.visitResumable, rfl⟩
  | @cons cat rt rt' rt'' period take from_ roll done ch ch' out out' hperiod hp hvisit _ ih =>
    obtain ⟨rfl, hc⟩ := hp
    obtain ⟨turns, hserves, rfl⟩ := visit_serves hc hvisit
    obtain ⟨turns', hserves', rfl⟩ := ih
    have hfirst : Serves rt turns rt' :=
      @Serves.of_fields _ _ _ period rt.visitResumable hserves
    exact ⟨turns ++ turns', hfirst.trans hserves', List.flatMap_append.symm⟩

/-- The watch on the series at place `i` of a pool, from where a lap begins. -/
def watch (rt : PoolRuntime) (h : Shelved rt.series) (opened : Finset String) {i : ℕ}
    (hi : i < rt.series.length) (hlong : 1 < rt.series[i].ids.length) : Watch :=
  ⟨rt.series, h, i, opened, hi, hlong⟩

theorem watch_rests {h : Shelved rt.series} {opened : Finset String} {i : ℕ}
    {hi : i < rt.series.length} {hlong : 1 < rt.series[i].ids.length}
    (hlimits : rt.limits.isUnconstrained = true) (hresume : rt.cfg.advance = .resume)
    (hopened : ∀ key ∈ rt.lap, key ∈ opened) : (rt.watch h opened hi hlong).Rests [] rt := by
  have hnth : rt.nth i = rt.series[i] := nth_of_getElem? (List.getElem?_eq_getElem hi)
  have hcursor := h.inRange _ (List.getElem_mem hi)
  refine ⟨⟨h.inRange, rfl, hlimits, hresume, ?_, fun j hj hlap => Or.inr (hopened _ hlap)⟩, ?_⟩
  · exact (congrArg Series.cursor hnth).trans (Nat.mod_eq_of_lt hcursor).symm
  · intro htop
    exact absurd htop.2 (Nat.lt_irrefl 0)

/-- Whenever a series of several items opens again after it ran out in a lap that began after
`past`, every other series gave something since: one of its items is among the draws since that
lap began, or it was in the lap the walk itself opened in. -/
def OthersFirst (rt : PoolRuntime) (turns : List Turn) : Prop :=
  ∀ past since turn rest p x q, turns = past ++ since ++ turn :: rest →
    (∀ t ∈ past.getLast?, t.lap = ∅) → turn.out = p ++ x :: q →
    ∀ s ∈ rt.series, 1 < s.ids.length → x ∈ s.ids →
      0 < (drawnOver since ++ p).countP (s.ids.contains ·) →
      (s.cursor + (drawnOver past ++ drawnOver since ++ p).countP (s.ids.contains ·)) %
        s.ids.length = 0 →
      ∀ t ∈ rt.series, t ≠ s →
        (∃ y ∈ drawnOver since ++ p, y ∈ t.ids) ∨ (past = [] ∧ t.key ∈ rt.lap)

/-- A finished series waits for the others, over any visits from the series' start. -/
theorem finished_waits {rt rt' : PoolRuntime} {out : List EntryId} (h : rt.Reachable)
    (hlimits : rt.limits.isUnconstrained = true) (hresume : rt.cfg.advance = .resume)
    (hshort : rt.cfg.onShort ≠ .wrap)
    (hvisits : Visits (fun from_ ch => from_ = .start ∧ ch.isUnconstrained = true) rt out rt') :
    ∃ turns, Serves rt turns rt' ∧ out = drawnOver turns ∧ rt.OthersFirst turns := by
  obtain ⟨turns, hserves, rfl⟩ := hvisits.serves
  refine ⟨turns, hserves, rfl, ?_⟩
  intro past since turn rest p x q hturns hlap hout s hs hlong hx hgave htop t ht hne
  have hshelved := h.shelved
  obtain ⟨i, hi, rfl⟩ := List.getElem_of_mem hs
  obtain ⟨j, hj, rfl⟩ := List.getElem_of_mem ht
  rw [hturns, List.append_assoc] at hserves
  obtain ⟨mid, hpast, hrun⟩ := hserves.split
  -- the watch from the start only says how far the series has come where the lap begins
  have hopening := @watch_rests rt hshelved rt.lap i hi hlong hlimits hresume fun _ hkey => hkey
  have hfirst := (hpast.waits hopening hshort).2
  have hmid : Shelved mid.series := hshelved.of_labels hfirst.inRange hfirst.labels
  have hlen : mid.series.length = rt.series.length := hfirst.toTracks.length_eq
  have hlabel : ∀ {k : ℕ} (hk : k < rt.series.length), (mid.nth k).label = rt.series[k].label := by
    intro k hk
    have hfrom := hfirst.toTracks.label_eq hk
    rw [hfrom, Watch.label, watch, List.getElem?_map, List.getElem?_eq_getElem hk]
    rfl
  have hi' : i < mid.series.length := hlen.symm ▸ hi
  have hnth : mid.nth i = mid.series[i] := nth_of_getElem? (List.getElem?_eq_getElem hi')
  have hids : mid.series[i].ids = rt.series[i].ids := by
    rw [← hnth]
    exact congrArg Prod.snd (hlabel hi)
  have hcursor : mid.series[i].cursor =
      (rt.series[i].cursor + (drawnOver past).countP (rt.series[i].ids.contains ·)) %
        rt.series[i].ids.length := by
    rw [← hnth]
    exact hfirst.cursor
  have hopened : ∀ key ∈ mid.lap, key ∈ if past = [] then rt.lap else ∅ := by
    intro key hkey
    rw [hpast.lap_eq] at hkey
    cases hlast : past.getLast? with
    | none =>
      rw [hlast] at hkey
      rw [if_pos (List.getLast?_eq_none_iff.mp hlast)]
      exact hkey
    | some t =>
      rw [hlast, Option.map_some, Option.getD_some, hlap t hlast] at hkey
      exact absurd hkey (Finset.notMem_empty _)
  have hlong' : 1 < mid.series[i].ids.length := by
    rw [hids]
    exact hlong
  have hrests := @watch_rests mid hmid _ i hi' hlong' hfirst.limits hfirst.resume hopened
  have hwaits := (hrun.waits hrests (hpast.cfg_eq.symm ▸ hshort)).1
  have hdrawn : drawnOver (since ++ turn :: rest) =
      (drawnOver since ++ p) ++ x :: (q ++ drawnOver rest) := by
    rw [drawnOver, List.flatMap_append, List.flatMap_cons, hout]
    simp only [drawnOver, List.append_assoc, List.cons_append]
  have hmod : (mid.series[i].cursor +
      (drawnOver since ++ p).countP (mid.series[i].ids.contains ·)) %
        mid.series[i].ids.length = 0 := by
    rw [hids, hcursor, Nat.mod_add_mod, Nat.add_assoc, ← List.countP_append, ← List.append_assoc]
    exact htop
  have hown : x ∈ mid.series[i].ids := hids.symm ▸ hx
  have hpos : 0 < (drawnOver since ++ p).countP (mid.series[i].ids.contains ·) := by
    rw [hids]
    exact hgave
  have hothers := hwaits _ x _ hdrawn hown hpos hmod
  have hplace : j ≠ i := by
    intro heq
    subst heq
    exact hne rfl
  have hgiven := hothers j (hlen.symm ▸ hj) hplace
  have hj' : j < mid.series.length := hlen.symm ▸ hj
  have hsame : (mid.watch hmid (if past = [] then rt.lap else ∅) hi' hlong').label j =
      rt.series[j].label := by
    rw [← hlabel hj, Watch.label, watch, List.getElem?_map, exists_getElem? hj']
    rfl
  rw [hsame] at hgiven
  rcases hgiven with ⟨y, hy, hmem⟩ | hkey
  · exact Or.inl ⟨y, hy, hmem⟩
  · right
    split_ifs at hkey with hpastnil
    · exact ⟨hpastnil, hkey⟩
    · exact absurd hkey (Finset.notMem_empty _)

/-- Eight draws of two shows, of two episodes and of three: each comes round again after the
other. -/
theorem finished_waits_shelf : ∃ (rt rt' : PoolRuntime) (out : List EntryId) (turns : List Turn),
    out.length = 8 ∧ Serves rt turns rt' ∧ out = drawnOver turns ∧ rt.OthersFirst turns := by
  have hshelf := @openShelf_reachable { name := "p", advance := .resume }
    ["a1", "b1", "a2", "b2", "b3"]
    fun rt => ((PoolRuntime.visit shelfCatalog { rt with period := none } (.count 8) .start
      ⟨7, 0, 0⟩ 0 {}).toOption.map fun v => v.1.length) == some 8 && rt.limits.isUnconstrained
  obtain ⟨rt, hreach, hcfg, hdrawn⟩ := hshelf (by decide +kernel)
  obtain ⟨hdrawn, hlimits⟩ := Bool.and_eq_true_iff.mp hdrawn
  obtain ⟨v, hv, hlen⟩ := Option.map_eq_some_iff.mp (beq_iff_eq.mp hdrawn)
  cases hvisit : PoolRuntime.visit shelfCatalog { rt with period := none } (.count 8) .start
      ⟨7, 0, 0⟩ 0 {} with
  | error e =>
    rw [hvisit] at hv
    cases hv
  | ok visited =>
    rw [hvisit] at hv
    obtain rfl := Option.some.inj hv
    have hperiod : (none : Option (ℤ × ℤ)).isSome = rt.cfg.rotate.span?.isSome := by
      rw [hcfg]
      rfl
    have hresume : rt.cfg.advance = .resume := by
      rw [hcfg]
    have hshort : rt.cfg.onShort ≠ .wrap := by
      rw [hcfg]
      decide
    have hvisits : Visits (fun from_ ch => from_ = .start ∧ ch.isUnconstrained = true) rt
        (visited.1 ++ []) visited.2.1 :=
      .cons hperiod ⟨rfl, rfl⟩ hvisit (.nil visited.2.1)
    obtain ⟨turns, hserves, hout, hothers⟩ :=
      finished_waits hreach hlimits hresume hshort hvisits
    refine ⟨rt, visited.2.1, visited.1 ++ [], turns, ?_, hserves, hout, hothers⟩
    rw [List.append_nil, hlen]

end Visits

end PoolRuntime

end EtvStation
