import EtvStation.Resolve.Blocks
import EtvStation.Emit

/-! What a generation leaves of the blocks that did not air: the state of their pools, the
positions of their lists, and the lists their pools walk. -/
namespace EtvStation.Resolve

variable {β : Type}

section Maps

variable {ν : Type} {m entries : BTreeMap String ν}

theorem extend_keyed (h : m.Keyed) (entries : BTreeMap String ν) : (extend m entries).Keyed := by
  induction entries generalizing m with
  | nil => exact h
  | cons e entries ih => exact ih (BTreeMap.put_keyed h e.1 e.2)

theorem mem_put {k k' : String} {v : ν} :
    k' ∈ (m.put k v).map Prod.fst ↔ k' = k ∨ k' ∈ m.map Prod.fst := by
  have hperm := (List.perm_insertionSort (fun a b : String × ν => a.1 ≤ b.1)
    ((k, v) :: m.filter fun e => e.1 ≠ k)).map Prod.fst
  rw [BTreeMap.put, BTreeMap.collect, hperm.mem_iff, List.map_cons, List.mem_cons]
  constructor
  · rintro (rfl | hmem)
    · exact Or.inl rfl
    · obtain ⟨e, he, rfl⟩ := List.mem_map.mp hmem
      exact Or.inr (List.mem_map_of_mem (List.mem_of_mem_filter he))
  · rintro (rfl | hmem)
    · exact Or.inl rfl
    · by_cases hk : k' = k
      · exact Or.inl hk
      · obtain ⟨e, he, rfl⟩ := List.mem_map.mp hmem
        exact Or.inr (List.mem_map_of_mem (List.mem_filter.mpr ⟨he, by simpa using hk⟩))

/-- An extension has the keys of both. -/
theorem mem_extend {k : String} :
    k ∈ (extend m entries).map Prod.fst ↔ k ∈ m.map Prod.fst ∨ k ∈ entries.map Prod.fst := by
  induction entries generalizing m with
  | nil => simp [extend]
  | cons e entries ih =>
    have hstep : extend m (e :: entries) = extend (m.put e.1 e.2) entries := rfl
    rw [hstep, ih, mem_put, List.map_cons, List.mem_cons]
    tauto

theorem get_eq_none_iff {k : String} : m.get k = none ↔ k ∉ m.map Prod.fst := by
  rw [BTreeMap.get, List.lookup_eq_none_iff]
  simp only [List.mem_map, not_exists, not_and, bne_iff_ne, ne_eq]
  exact ⟨fun h e he hk => h e he hk.symm, fun h e he hk => h e he hk.symm⟩

/-- A key that is not extended keeps its value. -/
theorem get_extend_of_not_mem (h : m.Keyed) {k : String} (hk : k ∉ entries.map Prod.fst) :
    (extend m entries).get k = m.get k := by
  induction entries generalizing m with
  | nil => rfl
  | cons e entries ih =>
    rw [List.map_cons, List.mem_cons, not_or] at hk
    have hstep : extend m (e :: entries) = extend (m.put e.1 e.2) entries := rfl
    rw [hstep, ih (BTreeMap.put_keyed h e.1 e.2) hk.2, BTreeMap.get_put h, if_neg hk.1]

/-- A key that is extended takes the new value. -/
theorem get_extend_of_mem (h : m.Keyed) (he : entries.Keyed) {k : String}
    (hk : k ∈ entries.map Prod.fst) : (extend m entries).get k = entries.get k := by
  induction entries generalizing m with
  | nil => exact absurd hk List.not_mem_nil
  | cons e entries ih =>
    have hput := BTreeMap.put_keyed h e.1 e.2
    have hnodup := List.nodup_cons.mp he
    have hstep : extend m (e :: entries) = extend (m.put e.1 e.2) entries := rfl
    rw [hstep]
    by_cases hrest : k ∈ entries.map Prod.fst
    · have hne : (k == e.1) = false := by
        rw [beq_eq_false_iff_ne]
        rintro rfl
        exact hnodup.1 hrest
      rw [ih hput hnodup.2 hrest, BTreeMap.get, BTreeMap.get, List.lookup_cons, hne]
    · have hfirst : k = e.1 := (List.mem_cons.mp hk).resolve_right hrest
      rw [get_extend_of_not_mem hput hrest, BTreeMap.get_put h, if_pos hfirst, BTreeMap.get,
        List.lookup_cons, hfirst, beq_self_eq_true]

theorem get_filter (p : String → Bool) (k : String) :
    BTreeMap.get (m.filter fun e => p e.1) k = if p k then m.get k else none := by
  induction m with
  | nil => simp [BTreeMap.get]
  | cons e m ih =>
    by_cases hp : p e.1
    · rw [List.filter_cons, if_pos hp, BTreeMap.get, List.lookup_cons, BTreeMap.get,
        List.lookup_cons]
      by_cases hk : k = e.1
      · rw [hk, beq_self_eq_true, if_pos hp]
      · have hne : (k == e.1) = false := by simpa using hk
        rw [hne]
        exact ih
    · rw [List.filter_cons, if_neg hp, ih, BTreeMap.get, BTreeMap.get, List.lookup_cons]
      by_cases hk : k = e.1
      · rw [hk, if_neg hp, if_neg hp]
      · have hne : (k == e.1) = false := by simpa using hk
        rw [hne]

theorem filter_keyed (h : m.Keyed) (p : String × ν → Bool) :
    BTreeMap.Keyed (m.filter p) :=
  h.sublist (List.filter_sublist.map Prod.fst)

end Maps

theorem mapError_eq_ok {α ε ε' : Type} {x : Except ε α} {f : ε → ε'} {a : α}
    (h : x.mapError f = .ok a) : x = .ok a := by
  cases x with
  | error e => cases h
  | ok b => exact congrArg Except.ok (Except.ok.inj h)

theorem resolvePoolBlockItems_progress
    {catalogItem : EntryId → Except String (Option (ResolvedItem β))} {build : BlockBuild}
    {mode : Mode} {idx : ℕ} {items : BlockItems β}
    (h : resolvePoolBlockItems catalogItem build mode idx = .ok items) :
    items.poolProgress = build.progress := by
  obtain ⟨found, -, h⟩ := Lib.bind_eq_ok.mp h
  obtain rfl := Except.ok.inj h
  rfl

/-- States of the pools of `names` only. -/
def Within (names : List String) (p : BTreeMap String PoolResume) : Prop :=
  ∀ k ∈ p.map Prod.fst, k ∈ names

section Laid

variable {names : List String}

/-- What the blocks laid so far hand on is about pools of `names` only. -/
structure Laying.WithinPools (l : Laying β) (names : List String) : Prop where
  pools : Within names l.pools
  lists : ∀ k ∈ l.lists.map Prod.fst, k ∈ names
  keyed : l.lists.Keyed
  progress : ∀ block ∈ l.poolProgress, ∀ p ∈ block, Within names p

theorem Laying.empty_within (names : List String) : ({} : Laying β).WithinPools names :=
  ⟨fun _ hk => absurd hk List.not_mem_nil, fun _ hk => absurd hk List.not_mem_nil,
    List.nodup_nil, fun _ hb => absurd hb List.not_mem_nil⟩

theorem resolveBlock_within {env : Env β} {include_ : BlockInclude β} {idx : ℕ} {seed : UInt64}
    {state : GenerationState} {fill : Option ℕ} {blockStart : ℤ} {rule : Option ChannelRule}
    {block : BlockItems β} {pools : BTreeMap String PoolResume}
    {lists : BTreeMap String (List FrozenList)}
    (h : env.resolveBlock include_ idx seed state fill blockStart rule =
      .ok (block, pools, lists)) (hnames : ∀ p ∈ include_.pools, p.name ∈ names) :
    Within names pools ∧ (∀ k ∈ lists.map Prod.fst, k ∈ names) ∧
      ∀ p ∈ block.poolProgress, Within names p := by
  have hpool : ∀ (build : Except String BlockBuild),
      (∀ b, build = .ok b → b.Of include_.pools) →
      env.resolvePool include_ idx build = .ok (block, pools, lists) →
      Within names pools ∧ (∀ k ∈ lists.map Prod.fst, k ∈ names) ∧
        ∀ p ∈ block.poolProgress, Within names p := by
    intro build hof h
    have hkeys : ∀ {k}, k ∈ include_.pools.map (·.name) → k ∈ names := by
      intro k hk
      obtain ⟨p, hp, rfl⟩ := List.mem_map.mp hk
      exact hnames p hp
    obtain ⟨b, hb, h⟩ := Lib.bind_eq_ok.mp h
    obtain ⟨items, hitems, h⟩ := Lib.bind_eq_ok.mp h
    obtain ⟨rfl, hrest⟩ := Prod.mk.inj (Except.ok.inj h)
    obtain ⟨rfl, rfl⟩ := Prod.mk.inj hrest
    have hof := hof b (mapError_eq_ok hb)
    have hprogress := resolvePoolBlockItems_progress (mapError_eq_ok hitems)
    refine ⟨fun k hk => ?_, fun k hk => ?_, fun p hp k hk => ?_⟩
    · exact hkeys ((hof.keys _ (List.mem_of_getElem? hof.progress_last)).mem_iff.mp hk)
    · obtain ⟨e, he, rfl⟩ := List.mem_map.mp hk
      exact hkeys (hof.lists e he)
    · rw [hprogress] at hp
      exact hkeys ((hof.keys p hp).mem_iff.mp hk)
  unfold Env.resolveBlock at h
  cases hbody : include_.body with
  | pattern b =>
    simp only [hbody] at h
    refine hpool _ (fun built hb => ?_) h
    rw [show include_.pools = b.pools by simp only [BlockInclude.pools, hbody]]
    exact (Station.build_recorded hb).1
  | sequencer b =>
    simp only [hbody] at h
    refine hpool _ (fun built hb => ?_) h
    rw [show include_.pools = b.pools by simp only [BlockInclude.pools, hbody]]
    exact SequencerBlock.build_of hb
  | entries resolve =>
    simp only [hbody] at h
    obtain ⟨items, -, h⟩ := Lib.bind_eq_ok.mp h
    obtain ⟨rfl, hrest⟩ := Prod.mk.inj (Except.ok.inj h)
    obtain ⟨rfl, rfl⟩ := Prod.mk.inj hrest
    exact ⟨fun k hk => absurd hk List.not_mem_nil, fun k hk => absurd hk List.not_mem_nil,
      fun p hp => absurd hp List.not_mem_nil⟩

theorem layBlock_within {env : Env β} {rule : RuleConfig β} {state : GenerationState}
    {seed : UInt64} {fill : Option ℕ} {windowStart : ℤ} {l l' : Laying β} {pos idx : ℕ}
    {include_ : BlockInclude β} (hl : l.WithinPools names)
    (h : env.layBlock rule state seed fill windowStart l pos idx include_ = .ok l')
    (hnames : ∀ p ∈ include_.pools, p.name ∈ names) : l'.WithinPools names := by
  obtain ⟨⟨block, pools, lists⟩, hblock, h⟩ := Lib.bind_eq_ok.mp h
  obtain rfl := Except.ok.inj h
  obtain ⟨hpools, hlists, hprogress⟩ := resolveBlock_within hblock hnames
  refine ⟨fun k hk => ?_, fun k hk => ?_, extend_keyed hl.keyed _, fun b hb p hp => ?_⟩
  · exact (mem_extend.mp hk).elim (hl.pools k) (hpools k)
  · exact (mem_extend.mp hk).elim (hl.lists k) (hlists k)
  · rcases List.mem_append.mp hb with hb | hb
    · exact hl.progress b hb p hp
    · obtain rfl := List.mem_singleton.mp hb
      exact hprogress p hp

theorem layBlocks_within {env : Env β} {rule : RuleConfig β} {state : GenerationState}
    {seed : UInt64} {fill : Option ℕ} {windowStart : ℤ} {l l' : Laying β} (pos : ℕ)
    {blocks : List (ℕ × BlockInclude β)} (hl : l.WithinPools names)
    (h : env.layBlocks rule state seed fill windowStart pos blocks l = .ok l')
    (hnames : ∀ b ∈ blocks, ∀ p ∈ b.2.pools, p.name ∈ names) : l'.WithinPools names := by
  induction blocks generalizing pos l with
  | nil =>
    obtain rfl := Except.ok.inj h
    exact hl
  | cons b blocks ih =>
    obtain ⟨idx, include_⟩ := b
    obtain ⟨l₁, hblock, h⟩ := Lib.bind_eq_ok.mp h
    exact ih _ (layBlock_within hl hblock (hnames _ List.mem_cons_self)) h
      fun b hb => hnames b (List.mem_cons_of_mem _ hb)

/-- The state entering an item is about the pools of the blocks laid. -/
theorem progressPerItem_within {poolProgress : List (List (BTreeMap String PoolResume))}
    (h : ∀ block ∈ poolProgress, ∀ p ∈ block, Within names p) (seat : Option EntriesSeat)
    (position : ℕ) (poolAired : List ℕ) (entriesAired : ℕ) (steps : List Step) :
    ∀ p ∈ progressPerItem poolProgress seat position poolAired entriesAired steps,
      Within names p.pools := by
  induction steps generalizing poolAired entriesAired with
  | nil => exact fun p hp => absurd hp List.not_mem_nil
  | cons step steps ih =>
    intro p hp
    unfold progressPerItem at hp
    rcases List.mem_cons.mp hp with rfl | hp
    · have hfold : ∀ (blocks : List (List (BTreeMap String PoolResume) × ℕ))
          (m : BTreeMap String PoolResume), (∀ b ∈ blocks, b.1 ∈ poolProgress) → Within names m →
          Within names (blocks.foldl (fun pools b => extend pools (b.1[b.2]?.getD [])) m) := by
        intro blocks
        induction blocks with
        | nil => exact fun m _ hm => hm
        | cons b blocks ih =>
          intro m hb hm
          refine ih _ (fun c hc => hb c (List.mem_cons_of_mem _ hc)) fun k hk => ?_
          rcases mem_extend.mp hk with hk | hk
          · exact hm k hk
          · cases hget : b.1[b.2]? with
            | none =>
              rw [hget] at hk
              exact absurd hk List.not_mem_nil
            | some q =>
              rw [hget] at hk
              exact h _ (hb b List.mem_cons_self) q (List.mem_of_getElem? hget) k hk
      refine hfold _ [] (fun b hb => ?_) fun k hk => absurd hk List.not_mem_nil
      exact (List.of_mem_zip (show (b.1, b.2) ∈ _ from hb)).1
    · cases step with
      | pool block seq => exact ih _ _ p hp
      | entry offset => exact ih _ _ p hp

end Laid

/-- The names of the pools an answer of the calendar airs. -/
def airedPools (rule : RuleConfig β) (onAir : Option OnAir) : List String :=
  (Env.selected rule onAir).flatMap fun b => b.2.pools.map (·.name)

/-- A slot's list did not air. -/
def Unplayed (onAir : OnAir) (name : String) : Prop :=
  ∀ index placement, onAir ≠ .slot name index placement

/-- A state that leaves what did not air as it was before. -/
structure Untouched (rule : RuleConfig β) (onAir : OnAir) (before p : Progress) : Prop where
  pools : ∀ name ∈ poolNames rule, name ∉ airedPools rule (some onAir) →
    p.pools.get name = before.pools.get name
  slots : ∀ name ∈ rule.slots.map Prod.fst, Unplayed onAir name →
    p.slotPositions.get name = before.slotPositions.get name
  position : onAir ≠ .anyTime → p.position = before.position

/-- What is carried into a state about the pools that aired leaves the others untouched. -/
theorem carry_untouched {rule : RuleConfig β} {onAir : OnAir} {before : ResumeMap}
    (hpools : before.pools.Keyed) (hslots : before.slotPositions.Keyed)
    (rotations : BTreeMap String RotationResume) {p : Progress}
    (hp : Within (airedPools rule (some onAir)) p.pools) :
    Untouched rule onAir before.toProgress (carry rule onAir before rotations p) where
  pools name hname hunaired := by
    show (extend (before.pools.filter fun e => e.1 ∈ poolNames rule) p.pools).get name = _
    rw [get_extend_of_not_mem (filter_keyed hpools _) fun hk => hunaired (hp name hk)]
    refine (get_filter (fun name => decide (name ∈ poolNames rule)) name).trans ?_
    rw [if_pos (decide_eq_true hname)]
  slots name hname hunplayed := by
    have hcarried : BTreeMap.get (before.slotPositions.filter fun e =>
        (rule.slots.get e.1).isSome) name = before.slotPositions.get name := by
      refine (get_filter (fun name => (rule.slots.get name).isSome) name).trans ?_
      rw [if_pos]
      rw [Option.isSome_iff_ne_none, ne_eq, get_eq_none_iff]
      exact not_not.mpr hname
    unfold carry place
    cases hslot : entriesSlot rule onAir with
    | none =>
      dsimp only
      exact hcarried
    | some slot =>
      dsimp only
      rw [BTreeMap.get_put (filter_keyed hslots _), if_neg, hcarried]
      rintro rfl
      cases onAir with
      | anyTime => cases hslot
      | slot s index placement =>
        obtain ⟨_, -, rfl⟩ := Option.map_eq_some_iff.mp hslot
        exact hunplayed index placement rfl
  position hair := by
    cases onAir with
    | anyTime => exact absurd rfl hair
    | slot s index placement => rfl

/-- The stored lists the blocks on air did not hand on are carried beside those they did. -/
theorem lists_carried {rule : RuleConfig β} {handed before : BTreeMap String (List FrozenList)}
    (hhanded : handed.Keyed) (hbefore : before.Keyed) {name : String}
    (hname : name ∈ poolNames rule)
    (h : handed.get name = none ∨ handed.get name = before.get name) :
    (extend handed (before.filter fun (name, _) =>
      name ∈ poolNames rule ∧ (handed.get name).isNone)).get name = before.get name := by
  set kept : BTreeMap String (List FrozenList) := before.filter fun (name, _) =>
    name ∈ poolNames rule ∧ (handed.get name).isNone with hkept
  have hget : kept.get name = if decide (name ∈ poolNames rule ∧ (handed.get name).isNone) then
      before.get name else none :=
    get_filter (fun name => decide (name ∈ poolNames rule ∧ (handed.get name).isNone)) name
  cases hhad : handed.get name with
  | none =>
    rw [hhad, if_pos (decide_eq_true ⟨hname, rfl⟩)] at hget
    by_cases hmem : name ∈ kept.map Prod.fst
    · rw [get_extend_of_mem hhanded (filter_keyed hbefore _) hmem, hget]
    · rw [get_extend_of_not_mem hhanded hmem, hhad, ← hget, get_eq_none_iff.mpr hmem]
  | some list =>
    rw [hhad, if_neg (by simp)] at hget
    rw [get_extend_of_not_mem hhanded (get_eq_none_iff.mp hget)]
    exact h.resolve_left (by simp [hhad])

/-- The blocks an answer airs hand on no other list of the pool than the one stored. -/
def NotReranked (env : Env β) (rule : RuleConfig β) (state : GenerationState) (fill : Option ℕ)
    (windowStart : ℤ) (onAir : OnAir) (name : String) : Prop :=
  ∀ l, env.layBlocks rule (Env.slotState state (some onAir)) (env.seed windowStart)
      (Env.calendarFill rule (env.rolloverFill rule fill windowStart) windowStart) windowStart 0
      (Env.selected rule (some onAir)) {} = .ok l →
    l.lists.get name = none ∨ l.lists.get name = state.resume.lists.get name

/-- What does not air is left as it was, in a generation's end state and in the state entering
each of its items. -/
theorem resolveChannel_unaired {env : Env β} {rule : RuleConfig β} {cal : Calendar}
    {state : GenerationState} {fill : Option ℕ} {windowStart : ℤ} {items : List (ResolvedItem β)}
    {out : ResumeMap} {progress : List Progress} (hcal : rule.calendar = some cal)
    (hpools : state.resume.pools.Keyed) (hslots : state.resume.slotPositions.Keyed)
    (hlists : state.resume.lists.Keyed)
    (h : env.resolveChannel rule state fill windowStart = .ok (items, out, progress)) :
    let onAir := (cal.onAirDrawn windowStart state.resume.rotations).1
    (∀ p ∈ out.toProgress :: progress, Untouched rule onAir state.resume.toProgress p) ∧
      ∀ name ∈ poolNames rule,
        name ∉ airedPools rule (some onAir) ∨
          NotReranked env rule state fill windowStart onAir name →
        out.lists.get name = state.resume.lists.get name := by
  intro onAir
  unfold Env.resolveChannel at h
  simp only [hcal, Option.map_some] at h
  obtain ⟨l, hlaid, h⟩ := Lib.bind_eq_ok.mp h
  obtain ⟨⟨rows, seat⟩, -, h⟩ := Lib.bind_eq_ok.mp h
  by_cases hempty : rows.isEmpty = true
  · simp only [hempty, if_true] at h
    cases h
  · simp only [hempty] at h
    obtain ⟨rows', -, h⟩ := Lib.bind_eq_ok.mp h
    obtain ⟨-, hrest⟩ := Prod.mk.inj (Except.ok.inj h)
    obtain ⟨rfl, rfl⟩ := Prod.mk.inj hrest
    have hwithin : l.WithinPools (airedPools rule (some onAir)) := by
      refine layBlocks_within 0 (Laying.empty_within _) hlaid fun b hb p hp => ?_
      exact List.mem_flatMap.mpr ⟨b, hb, List.mem_map_of_mem hp⟩
    refine ⟨fun p hp => ?_, fun name hname hkept => ?_⟩
    · rcases List.mem_cons.mp hp with rfl | hp
      · exact carry_untouched hpools hslots _ hwithin.pools
      · obtain ⟨q, hq, rfl⟩ := List.mem_map.mp hp
        exact carry_untouched hpools hslots _ (progressPerItem_within hwithin.progress _ _ _ _ _ q hq)
    · have hcases : l.lists.get name = none ∨ l.lists.get name = state.resume.lists.get name := by
        rcases hkept with hunaired | hkept
        · exact Or.inl (get_eq_none_iff.mpr fun hk => hunaired (hwithin.lists name hk))
        · exact hkept l hlaid
      exact lists_carried hwithin.keyed hlists hname hcases

/-- A catalog that can play every id for an hour, and separates nothing. -/
def plainEnv : Env Unit where
  station := { cat := {}, variety := { dice := fun _ _ => { seed := 0 } } }
  seed _ := 0
  nextRollover _ _ := none
  catalogItem _ id := .ok (some (clip id 1).1)
  known _ := some 3600000000000
  tailLengths ids := ids.map fun _ => 3600000000000
  nominal := 3600000000000

/-- A slot on air all day, over a pattern of films and beside a second slot. -/
def primeTime : RuleConfig Unit where
  blocks := [{ body := .pattern { pools := [{ name := "films" }], pattern := [] } }]
  slots := [("late", { body := .entries fun _ => .ok [(clip "talk" 1).1] }),
    ("prime", { body := .entries fun _ => .ok [(clip "news" 1).1, (clip "quiz" 1).1] })]
  calendar := some ⟨fun _ => .slot "prime" 2 none, fun _ r => (.slot "prime" 2 none, r)⟩

def afternoon : GenerationState where
  resume :=
    { pools := [("films", { next := some "alien" })]
      position := 3
      slotPositions := [("late", 7), ("prime", 1)]
      lists := [("films", [⟨"monday", ["alien"], []⟩])] }

theorem resolveChannel_unaired_primeTime :
    ∃ items out progress,
      plainEnv.resolveChannel primeTime afternoon none 0 = .ok (items, out, progress) ∧
      (∀ p ∈ out.toProgress :: progress,
        Untouched primeTime (.slot "prime" 2 none) afternoon.resume.toProgress p) ∧
      ∀ name ∈ poolNames primeTime,
        name ∉ airedPools primeTime (some (.slot "prime" 2 none)) ∨
          NotReranked plainEnv primeTime afternoon none 0 (.slot "prime" 2 none) name →
        out.lists.get name = afternoon.resume.lists.get name := by
  have hok : (plainEnv.resolveChannel primeTime afternoon none 0).isOk = true := by decide
  cases hrun : plainEnv.resolveChannel primeTime afternoon none 0 with
  | error e => simp [hrun, Except.isOk, Except.toBool] at hok
  | ok result =>
    obtain ⟨items, out, progress⟩ := result
    have hcal : primeTime.calendar =
        some ⟨fun _ => .slot "prime" 2 none, fun _ r => (.slot "prime" 2 none, r)⟩ := rfl
    refine ⟨items, out, progress, rfl, resolveChannel_unaired hcal ?_ ?_ ?_ hrun⟩
    · exact List.nodup_singleton _
    · unfold BTreeMap.Keyed
      decide
    · exact List.nodup_singleton _

end EtvStation.Resolve
