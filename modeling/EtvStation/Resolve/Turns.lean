import EtvStation.Resolve.Sequence
import EtvStation.Pattern.Seamless

/-! Whose turn is next in a sequencer block's pools. Every state a build hands back is read off
the items it aired and off nothing that came in. -/
namespace EtvStation

section Timelines

variable (series : List (List Series))

/-- The series of pool `i` that a timeline drew from last. -/
def lastHomed (ids : List EntryId) (i : ℕ) : Option ℕ :=
  ids.reverse.findSome? fun id => ((itemLocation series).lookup id).bind fun home =>
    if home.1 = i then some home.2 else none

/-- A timeline airs something of pool `i`. -/
def DrawsFrom (ids : List EntryId) (i : ℕ) : Prop :=
  ∃ id ∈ ids, ∃ si, (itemLocation series).lookup id = some (i, si)

/-- The series of pool `i` whose turn a timeline leaves next: the one after the last drawn. -/
def turnAfter (ids : List EntryId) (i : ℕ) : Option String :=
  (lastHomed series ids i).bind fun si =>
    series[i]?.bind fun own => own[(si + 1) % own.length]?.map (·.key)

variable {series}

theorem lastSeries_lookup (ids : List EntryId) (i : ℕ) :
    (lastSeries (itemLocation series) ids).lookup i = lastHomed series ids i := by
  induction ids using List.reverseRecOn with
  | nil => rfl
  | append_singleton ids id ih =>
    rw [lastSeries, List.foldl_append, List.foldl_cons, List.foldl_nil, ← lastSeries, lastHomed,
      List.reverse_append, List.reverse_singleton, List.singleton_append, List.findSome?_cons]
    cases hhome : (itemLocation series).lookup id with
    | none => exact ih
    | some home =>
      by_cases hi : home.1 = i
      · rw [← hi]
        simp
      · simp only [Option.bind_some, if_neg hi]
        rw [AList.lookup_insert_ne (Ne.symm hi)]
        exact ih

theorem extend_some {κ ν : Type} [DecidableEq κ] {entries : List (κ × ν)} {m : HashMap κ ν} {k : κ}
    {v : ν} (h : (m.extend entries).lookup k = some v) : m.lookup k = some v ∨ (k, v) ∈ entries := by
  induction entries generalizing m with
  | nil => exact .inl h
  | cons e entries ih =>
    rcases ih (m := m.insert e.1 e.2) h with hm | hmem
    · by_cases hk : k = e.1
      · rw [hk, AList.lookup_insert] at hm
        refine .inr ?_
        rw [hk, ← Option.some.inj hm]
        exact List.mem_cons_self
      · rw [AList.lookup_insert_ne hk] at hm
        exact .inl hm
    · exact .inr (List.mem_cons_of_mem _ hmem)

/-- A home is a series of its pool that holds the id. -/
theorem itemLocation_some {id : EntryId} {i si : ℕ}
    (h : (itemLocation series).lookup id = some (i, si)) :
    ∃ own s, series[i]? = some own ∧ own[si]? = some s ∧ id ∈ s.ids := by
  rcases extend_some h with hnone | hmem
  · simp at hnone
  · obtain ⟨pool, hpool, hmem⟩ := List.mem_flatMap.mp hmem
    obtain ⟨s, hs, hmem⟩ := List.mem_flatMap.mp hmem
    obtain ⟨id', hid, heq⟩ := List.mem_map.mp hmem
    obtain ⟨rfl, rfl, rfl⟩ : id' = id ∧ pool.2 = i ∧ s.2 = si := by simpa using heq
    exact ⟨pool.1, s.1, List.mk_mem_zipIdx_iff_getElem?.mp hpool,
      List.mk_mem_zipIdx_iff_getElem?.mp hs, hid⟩

theorem lastHomed_append (xs ys : List EntryId) (i : ℕ) :
    lastHomed series (xs ++ ys) i = (lastHomed series ys i).or (lastHomed series xs i) := by
  rw [lastHomed, List.reverse_append, List.findSome?_append]
  rfl

theorem lastHomed_eq_none {ids : List EntryId} {i : ℕ} (h : ¬ DrawsFrom series ids i) :
    lastHomed series ids i = none := by
  refine List.findSome?_eq_none_iff.mpr fun id hid => ?_
  cases hhome : (itemLocation series).lookup id with
  | none => rfl
  | some home =>
    have hne : home.1 ≠ i := fun hi => h ⟨id, List.mem_reverse.mp hid, home.2, by rw [hhome, ← hi]⟩
    exact if_neg hne

theorem lastHomed_of_draws {ids : List EntryId} {i : ℕ} (h : DrawsFrom series ids i) :
    ∃ id si, lastHomed series ids i = some si ∧
      (itemLocation series).lookup id = some (i, si) := by
  obtain ⟨id, hid, si, hhome⟩ := h
  have hsome : (lastHomed series ids i).isSome := by
    rw [lastHomed, List.isSome_findSome?]
    exact List.any_eq_true.mpr ⟨id, List.mem_reverse.mpr hid, by simp [hhome]⟩
  obtain ⟨sj, hsj⟩ := Option.isSome_iff_exists.mp hsome
  obtain ⟨id', -, hid'⟩ := List.exists_of_findSome?_eq_some hsj
  obtain ⟨home, hhome', hif⟩ := Option.bind_eq_some_iff.mp hid'
  by_cases hi : home.1 = i
  · rw [if_pos hi] at hif
    exact ⟨id', sj, hsj, by rw [hhome', ← hi, ← Option.some.inj hif]⟩
  · simp [hi] at hif

/-- A pool names a next series just when the timeline drew from it. -/
theorem turnAfter_isSome (ids : List EntryId) (i : ℕ) :
    (turnAfter series ids i).isSome ↔ DrawsFrom series ids i := by
  constructor
  · intro h
    by_contra hnone
    rw [turnAfter, lastHomed_eq_none hnone] at h
    cases h
  · intro h
    obtain ⟨id, si, hlast, hhome⟩ := lastHomed_of_draws h
    obtain ⟨own, s, hown, hs, -⟩ := itemLocation_some hhome
    have hlt : (si + 1) % own.length < own.length :=
      Nat.mod_lt _ (Nat.zero_lt_of_lt (List.getElem?_eq_some_iff.mp hs).1)
    rw [turnAfter, hlast, Option.bind_some, hown, Option.bind_some,
      List.getElem?_eq_getElem hlt]
    rfl

/-- What a later timeline drew decides; an earlier one only where the later drew nothing. -/
theorem turnAfter_append_of_draws (xs : List EntryId) {ys : List EntryId} {i : ℕ}
    (h : DrawsFrom series ys i) : turnAfter series (xs ++ ys) i = turnAfter series ys i := by
  obtain ⟨id, si, hlast, -⟩ := lastHomed_of_draws h
  rw [turnAfter, lastHomed_append, hlast, turnAfter, hlast]
  rfl

end Timelines

/-- The series a state names as next in a pool. -/
def nextTurn (resume : BTreeMap String PoolResume) (pool : String) : Option String :=
  (resume.get pool).bind (·.next)

namespace SequencerBlock

variable (b : SequencerBlock)

/-- The series a generation opens the block's pools on. -/
def opened (st : Station) (state : GenerationState) (windowStart : ℤ) :
    Except String (List (List Series)) := do
  let opens := windowStart / 1000000000 * 1000000000
  let dice := b.pools.map (st.variety.dice opens)
  let (lists, _) ← resolvePoolSources st.cat st.variety st.env b.groups (b.pools.zip dice)
    { lists := state.resume.lists }
  b.resolveSeries st state (b.pools.zip (lists.zip dice))

variable {b}

theorem nextTurn_resumeAfter {v : Variety} {dice : List Dice} {series : List (List Series)}
    (hdice : dice.length = b.pools.length) (hseries : series.length = b.pools.length)
    (hnames : (b.pools.map (·.name)).Nodup) {i : ℕ} {pool : Pool} (hpool : b.pools[i]? = some pool)
    (ids : List EntryId) :
    nextTurn (b.resumeAfter v dice series (lastSeries (itemLocation series) ids)) pool.name =
      turnAfter series ids i := by
  have hlt : i < b.pools.length := (List.getElem?_eq_some_iff.mp hpool).1
  have hd : dice[i]? = some (dice.get ⟨i, by omega⟩) := List.getElem?_eq_getElem (by omega)
  have hs : series[i]? = some (series.get ⟨i, by omega⟩) := List.getElem?_eq_getElem (by omega)
  have hkeyed := (resumeAfter_keys (v := v) hdice hseries
    (lastSeries (itemLocation series) ids)).nodup_iff.mpr hnames
  have hmem : ((pool, dice.get ⟨i, by omega⟩, series.get ⟨i, by omega⟩), i) ∈
      (b.pools.zip (dice.zip series)).zipIdx := by
    refine List.mk_mem_zipIdx_iff_getElem?.mpr ?_
    rw [List.getElem?_zip_eq_some, List.getElem?_zip_eq_some]
    exact ⟨hpool, hd, hs⟩
  have hget := (Lib.lookup_eq_some_iff_mem hkeyed).mpr
    ((List.perm_insertionSort _ _).mem_iff.mpr (List.mem_map_of_mem hmem))
  have hturn : nextTurn (b.resumeAfter v dice series (lastSeries (itemLocation series) ids))
      pool.name = ((lastSeries (itemLocation series) ids).lookup i).bind fun si =>
        (series.get ⟨i, by omega⟩)[(si + 1) % (series.get ⟨i, by omega⟩).length]?.map (·.key) :=
    congrArg (fun entry : Option PoolResume => entry.bind (·.next)) hget
  rw [hturn, lastSeries_lookup, turnAfter, hs]
  rfl

/-- Everything a build says of turns: its series are what it opened on, and each state is the
one its items leave. -/
theorem build_turns {st : Station} {state : GenerationState} {windowStart : ℤ} {fill : Option ℕ}
    {built : BlockBuild} {series : List (List Series)}
    (hbuild : b.build st state windowStart fill = .ok built)
    (hopen : b.opened st state windowStart = .ok series)
    (hnames : (b.pools.map (·.name)).Nodup) {i : ℕ} {pool : Pool}
    (hpool : b.pools[i]? = some pool) :
    nextTurn built.resume pool.name = turnAfter series built.ids i ∧
    ∀ k ≤ built.ids.length, ∃ entry, built.progress[k]? = some entry ∧
      nextTurn entry pool.name = turnAfter series (built.ids.take k) i := by
  obtain ⟨⟨lists, src⟩, hsources, h⟩ := Lib.bind_eq_ok.mp hbuild
  obtain ⟨series', hseries, h⟩ := Lib.bind_eq_ok.mp h
  have hsame : b.opened st state windowStart = .ok series' :=
    Lib.bind_eq_ok.mpr ⟨⟨lists, src⟩, hsources, hseries⟩
  obtain rfl : series' = series := Except.ok.inj (hsame.symm.trans hopen)
  obtain ⟨raw, -, h⟩ := Lib.bind_eq_ok.mp h
  have hdice : (b.pools.map (st.variety.dice (windowStart / 1000000000 * 1000000000))).length =
      b.pools.length := List.length_map _
  have hlists := resolvePoolSources_length hsources
  have hlen := (Lib.mapM_eq_ok hseries).1
  simp only [List.length_zip, hdice, min_self] at hlists hlen
  have hall : series'.length = b.pools.length := by omega
  have hturn := nextTurn_resumeAfter (v := st.variety) hdice hall hnames hpool
  dsimp only at h
  split at h
  · cases h
  · obtain ⟨arranged, -, h⟩ := Lib.bind_eq_ok.mp h
    obtain rfl := Except.ok.inj h
    refine ⟨hturn arranged, fun k hk => ⟨_, ?_, hturn (arranged.take k)⟩⟩
    have hlt : k < arranged.inits.length := by
      rw [List.length_inits]
      exact Nat.lt_succ_of_le hk
    change (arranged.inits.map _)[k]? = _
    rw [List.getElem?_map, List.getElem?_eq_getElem hlt, List.getElem_inits]
    rfl

/-- A timeline aired by one generation or by two, over pools that open on the same series. Every
state is the one its own items leave: an entry is the state of a generation that stopped there,
the first names no turn at all, and the later part decides the turn of each pool it draws from
and forgets that of every other. -/
theorem turns_cut (hnames : (b.pools.map (·.name)).Nodup) {st st₁ st₂ : Station}
    {state state₁ state₂ : GenerationState} {from_ from₁ from₂ : ℤ} {fill fill₁ fill₂ : Option ℕ}
    {whole first second : BlockBuild} {series : List (List Series)}
    (hwhole : b.build st state from_ fill = .ok whole)
    (hopen : b.opened st state from_ = .ok series)
    (hfirst : b.build st₁ state₁ from₁ fill₁ = .ok first)
    (hopen₁ : b.opened st₁ state₁ from₁ = .ok series)
    (hsecond : b.build st₂ state₂ from₂ fill₂ = .ok second)
    (hopen₂ : b.opened st₂ state₂ from₂ = .ok series)
    (hcut : first.ids ++ second.ids = whole.ids)
    {i : ℕ} {pool : Pool} (hpool : b.pools[i]? = some pool) :
    nextTurn whole.resume pool.name = turnAfter series whole.ids i ∧
    (∀ k ≤ whole.ids.length, ∃ entry, whole.progress[k]? = some entry ∧
      nextTurn entry pool.name = turnAfter series (whole.ids.take k) i) ∧
    (∃ entry, whole.progress[0]? = some entry ∧ nextTurn entry pool.name = none) ∧
    (∃ entry, whole.progress[first.ids.length]? = some entry ∧
      nextTurn entry pool.name = nextTurn first.resume pool.name) ∧
    (DrawsFrom series second.ids i →
      nextTurn second.resume pool.name = nextTurn whole.resume pool.name) ∧
    ((nextTurn second.resume pool.name).isSome ↔ DrawsFrom series second.ids i) := by
  obtain ⟨hend, hprogress⟩ := build_turns hwhole hopen hnames hpool
  have hend₁ := (build_turns hfirst hopen₁ hnames hpool).1
  have hend₂ := (build_turns hsecond hopen₂ hnames hpool).1
  refine ⟨hend, hprogress, hprogress 0 (Nat.zero_le _), ?_, ?_, ?_⟩
  · have hle : first.ids.length ≤ whole.ids.length := by
      rw [← hcut, List.length_append]
      exact Nat.le_add_right _ _
    obtain ⟨entry, hentry, hturn⟩ := hprogress first.ids.length hle
    refine ⟨entry, hentry, ?_⟩
    rw [hturn, hend₁, ← hcut, List.take_left]
  · intro hdraws
    rw [hend₂, hend, ← hcut, turnAfter_append_of_draws first.ids hdraws]
  · rw [hend₂, turnAfter_isSome]

/-- A script that airs an episode and a film, and only the film once an episode has aired. -/
def alternating : SequencerBlock where
  pools := twoPoolBlock.pools
  script := "alternating.rhai"
  arrange := fun _ state _ _ =>
    .ok (if (nextTurn state.resume.pools "p").isSome then ["f"] else ["a1", "f"])

def alternatingState : GenerationState where
  resume := { pools := [("p", { next := some "B" }), ("q", {})] }

def alternatingSeries : List (List Series) :=
  [[⟨"A", "A", ["a1", "a2", "a3"], 0, false⟩, ⟨"B", "B", ["b1", "b2"], 0, false⟩],
    [⟨"f", "f", ["f"], 0, false⟩, ⟨"g", "g", ["g"], 0, false⟩]]

theorem alternating_opened :
    alternating.opened twoPoolStation {} 0 = .ok alternatingSeries ∧
    alternating.opened twoPoolStation alternatingState 0 = .ok alternatingSeries := by
  decide +kernel

/-- The film's generation forgets that the second show is next, which it came in with and the
single generation names. -/
theorem turn_lost_alternating : ∃ whole first second,
    alternating.build twoPoolStation {} 0 none = .ok whole ∧
    alternating.build twoPoolStation {} 0 (some 1) = .ok first ∧
    alternating.build twoPoolStation alternatingState 0 none = .ok second ∧
    first.ids ++ second.ids = whole.ids ∧ first.resume = alternatingState.resume.pools ∧
    nextTurn whole.resume "p" = some "B" ∧ nextTurn second.resume "p" = none ∧
    second.progress[0]? ≠ some alternatingState.resume.pools := by
  obtain ⟨whole, hwhole, hids, hturn⟩ := exists_build
    (e := alternating.build twoPoolStation {} 0 none)
    (P := fun b => b.ids = ["a1", "f"] ∧ nextTurn b.resume "p" = some "B") (by decide +kernel)
  obtain ⟨first, hfirst, hids₁, hresume⟩ := exists_build
    (e := alternating.build twoPoolStation {} 0 (some 1))
    (P := fun b => b.ids = ["a1"] ∧ b.resume = alternatingState.resume.pools) (by decide +kernel)
  obtain ⟨second, hsecond, hids₂, hturn₂, hentry⟩ := exists_build
    (e := alternating.build twoPoolStation alternatingState 0 none)
    (P := fun b => b.ids = ["f"] ∧ nextTurn b.resume "p" = none ∧
      b.progress[0]? ≠ some alternatingState.resume.pools) (by decide +kernel)
  exact ⟨whole, first, second, hwhole, hfirst, hsecond, by rw [hids, hids₁, hids₂]; rfl, hresume,
    hturn, hturn₂, hentry⟩

theorem turns_cut_alternating : ∃ whole second,
    alternating.build twoPoolStation {} 0 none = .ok whole ∧
    alternating.build twoPoolStation alternatingState 0 none = .ok second ∧
    nextTurn second.resume "q" = nextTurn whole.resume "q" := by
  obtain ⟨whole, hwhole, hids⟩ := exists_build
    (e := alternating.build twoPoolStation {} 0 none)
    (P := fun b => b.ids = ["a1", "f"]) (by decide +kernel)
  obtain ⟨first, hfirst, hids₁⟩ := exists_build
    (e := alternating.build twoPoolStation {} 0 (some 1))
    (P := fun b => b.ids = ["a1"]) (by decide +kernel)
  obtain ⟨second, hsecond, hids₂⟩ := exists_build
    (e := alternating.build twoPoolStation alternatingState 0 none)
    (P := fun b => b.ids = ["f"]) (by decide +kernel)
  have hcut : first.ids ++ second.ids = whole.ids := by
    rw [hids, hids₁, hids₂]
    rfl
  have hdraws : DrawsFrom alternatingSeries second.ids 1 := by
    rw [hids₂]
    exact ⟨"f", List.mem_singleton_self _, 0, by decide +kernel⟩
  have hpool : alternating.pools[1]? =
      some { name := "q", expr := some "films", advance := .resume, rotate := .slot } := rfl
  have hturns := turns_cut (by decide) hwhole alternating_opened.1 hfirst alternating_opened.1
    hsecond alternating_opened.2 hcut hpool
  exact ⟨whole, second, hwhole, hsecond, hturns.2.2.2.2.1 hdraws⟩

end SequencerBlock

end EtvStation
