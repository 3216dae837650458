import EtvStation.Resolve.Unaired

/-! The end state of a pool block beside what the block contributes: the walk goes on past the ids
that `mode: count` cuts. -/
namespace EtvStation.Resolve

variable {β : Type}

/-- How many drawn ids are past once the last of the items at `steps` has aired. -/
def pastLast (steps : List Step) : ℕ :=
  match steps.getLast? with
  | some (.pool _ seq) => seq + 1
  | _ => 0

/-- The mode cuts none of `n` items. -/
def Mode.KeepsAll : Mode → ℕ → Prop
  | .all, _ => True
  | .count limit, n => n ≤ limit

/-- Of the drawn ids, with the catalog's answer for each, the last is played and not cut. -/
def PlaysLast (mode : Mode) (found : List (Option (ResolvedItem β))) : Prop :=
  ∀ last, found.getLast? = some last → last.isSome = true ∧
    mode.KeepsAll (found.filterMap id).length

/-- The ids drawn that can be played, each with its place among those drawn. -/
def playable (idx : ℕ) (found : List (Option (ResolvedItem β))) : List (ResolvedItem β × Step) :=
  found.zipIdx.filterMap fun (item, seq) => item.map fun item => (item, Step.pool idx seq)

section Playable

variable {idx : ℕ} {found : List (Option (ResolvedItem β))}

theorem playable_concat (x : Option (ResolvedItem β)) :
    playable idx (found ++ [x]) =
      playable idx found ++ (x.map fun item => (item, Step.pool idx found.length)).toList := by
  unfold playable
  rw [List.zipIdx_append, List.filterMap_append]
  cases x <;> simp

theorem length_playable : (playable idx found).length = (found.filterMap id).length := by
  induction found using List.reverseRecOn with
  | nil => rfl
  | append_singleton found x ih =>
    rw [playable_concat, List.length_append, List.filterMap_append, List.length_append, ih]
    cases x <;> simp

theorem playable_lt {e : ResolvedItem β × Step} (h : e ∈ playable idx found) :
    ∃ seq, e.2 = .pool idx seq ∧ seq < found.length := by
  obtain ⟨⟨item, seq⟩, hmem, he⟩ := List.mem_filterMap.mp h
  obtain ⟨a, -, rfl⟩ := Option.map_eq_some_iff.mp he
  have hlt := (List.mem_zipIdx hmem).2.1
  refine ⟨seq, rfl, ?_⟩
  simpa using hlt

/-- What a cut leaves ends before the last id drawn. -/
theorem playable_cut {n : ℕ} {e : ResolvedItem β × Step} (hn : n < (playable idx found).length)
    (h : e ∈ (playable idx found).take n) : ∃ seq, e.2 = .pool idx seq ∧ seq + 1 < found.length := by
  induction found using List.reverseRecOn with
  | nil => exact absurd hn (Nat.not_lt_zero n)
  | append_singleton found x ih =>
    rw [List.length_append, List.length_singleton]
    rw [playable_concat] at hn h
    cases x with
    | none =>
      rw [Option.map_none, Option.toList_none, List.append_nil] at hn h
      obtain ⟨seq, hseq, hlt⟩ := ih hn h
      exact ⟨seq, hseq, by omega⟩
    | some item =>
      rw [List.length_append] at hn
      have hle : n ≤ (playable idx found).length := Nat.lt_succ_iff.mp hn
      rw [List.take_append_of_le_length hle] at h
      obtain ⟨seq, hseq, hlt⟩ := playable_lt (List.mem_of_mem_take h)
      exact ⟨seq, hseq, by omega⟩

end Playable

def kept (mode : Mode) (idx : ℕ) (found : List (Option (ResolvedItem β))) :
    List (ResolvedItem β × Step) :=
  match mode with
  | .all => playable idx found
  | .count n => (playable idx found).take n

theorem pastLast_le (idx : ℕ) {N : ℕ} {l : List (ResolvedItem β × Step)}
    (h : ∀ e ∈ l, ∃ seq, e.2 = .pool idx seq ∧ seq + 1 ≤ N) : pastLast (l.map Prod.snd) ≤ N := by
  unfold pastLast
  rw [List.getLast?_map]
  cases hlast : l.getLast? with
  | none => exact Nat.zero_le N
  | some e =>
    obtain ⟨seq, hseq, hle⟩ := h e (List.mem_of_getLast? hlast)
    rw [Option.map_some, hseq]
    exact hle

/-- Past the last item are all the ids drawn exactly where the last of them is played. -/
theorem pastLast_eq_iff {mode : Mode} {idx : ℕ} {found : List (Option (ResolvedItem β))} :
    pastLast ((kept mode idx found).map Prod.snd) ≤ found.length ∧
      (pastLast ((kept mode idx found).map Prod.snd) = found.length ↔ PlaysLast mode found) := by
  have hsub : ∀ e ∈ kept mode idx found, e ∈ playable idx found := by
    intro e he
    cases mode with
    | all => exact he
    | count n => exact List.mem_of_mem_take he
  refine ⟨pastLast_le idx fun e he => playable_lt (hsub e he), ?_⟩
  cases found using List.reverseRecOn with
  | nil =>
    have hnil : kept mode idx ([] : List (Option (ResolvedItem β))) = [] :=
      List.eq_nil_iff_forall_not_mem.mpr fun e he => absurd (hsub e he) List.not_mem_nil
    rw [hnil]
    exact ⟨fun _ _ hlast => absurd hlast (by simp), fun _ => rfl⟩
  | append_singleton found x =>
    have hlen : (found ++ [x]).length = found.length + 1 := by simp
    have hiff : PlaysLast mode (found ++ [x]) ↔ x.isSome = true ∧
        mode.KeepsAll (playable idx (found ++ [x])).length := by
      rw [length_playable]
      simp [PlaysLast]
    rw [hiff, hlen]
    cases x with
    | none =>
      -- The last id drawn cannot be played: nothing kept reaches it.
      have hle : pastLast ((kept mode idx (found ++ [none])).map Prod.snd) ≤ found.length := by
        refine pastLast_le idx fun e he => ?_
        have hmem := hsub e he
        rw [playable_concat, Option.map_none, Option.toList_none, List.append_nil] at hmem
        exact playable_lt hmem
      constructor
      · intro heq
        omega
      · rintro ⟨hsome, -⟩
        cases hsome
    | some item =>
      have hwhole : pastLast ((playable idx (found ++ [some item])).map Prod.snd) =
          found.length + 1 := by
        rw [playable_concat]
        simp [pastLast]
      cases mode with
      | all => exact ⟨fun _ => ⟨rfl, trivial⟩, fun _ => hwhole⟩
      | count n =>
        by_cases hn : (playable idx (found ++ [some item])).length ≤ n
        · have hkept : kept (.count n) idx (found ++ [some item]) =
              playable idx (found ++ [some item]) := List.take_of_length_le hn
          rw [hkept]
          exact ⟨fun _ => ⟨rfl, hn⟩, fun _ => hwhole⟩
        · have hlt : pastLast ((kept (.count n) idx (found ++ [some item])).map Prod.snd) ≤
              found.length := by
            refine pastLast_le idx fun e he => ?_
            obtain ⟨seq, hseq, hlt⟩ := playable_cut (not_le.mp hn) he
            exact ⟨seq, hseq, by omega⟩
          constructor
          · intro heq
            omega
          · rintro ⟨-, hle⟩
            exact absurd hle hn

theorem resolvePoolBlockItems_steps
    {catalogItem : EntryId → Except String (Option (ResolvedItem β))} {build : BlockBuild}
    {mode : Mode} {idx : ℕ} {items : BlockItems β} {found : List (Option (ResolvedItem β))}
    (hfound : build.ids.mapM catalogItem = .ok found)
    (h : resolvePoolBlockItems catalogItem build mode idx = .ok items) :
    items.steps = (kept mode idx found).map Prod.snd ∧ items.poolProgress = build.progress := by
  obtain ⟨found', hfound', h⟩ := Lib.bind_eq_ok.mp h
  obtain rfl := Except.ok.inj (hfound.symm.trans hfound')
  obtain rfl := Except.ok.inj h
  cases mode <;> exact ⟨rfl, rfl⟩

def Env.drawn (env : Env β) (include_ : BlockInclude β) (state : GenerationState)
    (fill : Option ℕ) (blockStart : ℤ) (rule : Option ChannelRule) :
    Option (Except String BlockBuild) :=
  match include_.body with
  | .pattern block => some (env.station.build block state blockStart fill rule)
  | .sequencer block => some (block.build env.station state blockStart fill)
  | .entries _ => none

/-- The state a pool block hands to the next generation is the one after its last item. -/
def EndsAtLast (block : BlockItems β) (pools : BTreeMap String PoolResume) : Prop :=
  block.poolProgress[pastLast block.steps]? = some pools

section End

variable {env : Env β} {include_ : BlockInclude β} {idx : ℕ} {seed : UInt64}
  {state : GenerationState} {fill : Option ℕ} {blockStart : ℤ} {rule : Option ChannelRule}
  {build : BlockBuild} {found : List (Option (ResolvedItem β))} {block : BlockItems β}
  {pools : BTreeMap String PoolResume} {lists : BTreeMap String (List FrozenList)}

theorem resolveBlock_drawn
    (hbuild : env.drawn include_ state fill blockStart rule = some (.ok build))
    (h : env.resolveBlock include_ idx seed state fill blockStart rule =
      .ok (block, pools, lists)) :
    resolvePoolBlockItems (env.catalogItem idx) build include_.mode idx = .ok block ∧
      pools = build.resume ∧ build.Of include_.pools := by
  have hpool : ∀ x : Except String BlockBuild, x = .ok build →
      env.resolvePool include_ idx x = .ok (block, pools, lists) →
      resolvePoolBlockItems (env.catalogItem idx) build include_.mode idx = .ok block ∧
        pools = build.resume := by
    rintro _ rfl h
    obtain ⟨b, hb, h⟩ := Lib.bind_eq_ok.mp h
    obtain rfl := Except.ok.inj (mapError_eq_ok hb)
    obtain ⟨items, hitems, h⟩ := Lib.bind_eq_ok.mp h
    obtain ⟨rfl, hrest⟩ := Prod.mk.inj (Except.ok.inj h)
    exact ⟨mapError_eq_ok hitems, (Prod.mk.inj hrest).1.symm⟩
  unfold Env.resolveBlock at h
  unfold Env.drawn at hbuild
  unfold BlockInclude.pools
  cases hbody : include_.body with
  | pattern b =>
    simp only [hbody, Option.some.injEq] at h hbuild
    obtain ⟨hitems, hpools⟩ := hpool _ hbuild h
    exact ⟨hitems, hpools, (Station.build_recorded hbuild).1⟩
  | sequencer b =>
    simp only [hbody, Option.some.injEq] at h hbuild
    obtain ⟨hitems, hpools⟩ := hpool _ hbuild h
    exact ⟨hitems, hpools, SequencerBlock.build_of hbuild⟩
  | entries resolve =>
    simp only [hbody] at hbuild
    cases hbuild

/-- A walk's state before one of its ids is not the state it ends in. -/
theorem progress_ne_resume {b : Block} (hresume : ∀ p ∈ b.pools, p.advance = .resume)
    (hbuild : env.station.build b state blockStart fill rule = .ok build) {k : ℕ}
    (hk : k < build.ids.length) : build.progress[k]? ≠ some build.resume := by
  intro hsame
  obtain ⟨-, w, rfl, stop, hstop, hrecorded⟩ := Station.build_recorded hbuild
  obtain ⟨pos, hbefore, hat⟩ := hrecorded k _ hk hsame
  have henters : w.entersAt pos = pos := by
    have hall : w.stopAtVisit = true := List.all_eq_true.mpr fun p hp => decide_eq_true (hresume p hp)
    unfold Walk.entersAt
    rw [hall, Bool.true_or, if_pos rfl]
  rw [henters] at hat
  have hpools : w.block.pools ≠ [] := by
    intro hnone
    rw [Station.build_poolless hbuild hnone] at hk
    exact Nat.not_lt_zero k hk
  obtain ⟨p, hp⟩ := List.exists_mem_of_ne_nil _ hpools
  have hname := hstop.keys.mem_iff.mpr (List.mem_map_of_mem hp)
  obtain ⟨e, he, -⟩ := List.mem_map.mp hname
  obtain ⟨cfg, hcfg, -, hstands⟩ := hstop.at_eq e he
  obtain ⟨hcycle, hstep⟩ := hstands (hresume cfg hcfg)
  obtain ⟨cfg', hcfg', -, hat'⟩ := hat.at_eq e he
  obtain ⟨hcycle', hstep'⟩ := hat' (hresume cfg' hcfg')
  have hpos : pos = stop := Prod.ext (hcycle'.symm.trans hcycle) (hstep'.symm.trans hstep)
  exact Walk.Before.irrefl stop (hpos ▸ hbefore)

/-- A pool block ends where its last item leaves it whenever the last id it drew is played; a
pattern block that resumes ends there only then. -/
theorem resolveBlock_endsAtLast
    (hbuild : env.drawn include_ state fill blockStart rule = some (.ok build))
    (hfound : build.ids.mapM (env.catalogItem idx) = .ok found)
    (h : env.resolveBlock include_ idx seed state fill blockStart rule =
      .ok (block, pools, lists)) :
    (PlaysLast include_.mode found → EndsAtLast block pools) ∧
      ∀ b, include_.body = .pattern b → (∀ p ∈ b.pools, p.advance = .resume) →
        (EndsAtLast block pools ↔ PlaysLast include_.mode found) := by
  obtain ⟨hitems, rfl, hof⟩ := resolveBlock_drawn hbuild h
  obtain ⟨hsteps, hprogress⟩ := resolvePoolBlockItems_steps hfound hitems
  have hlen : found.length = build.ids.length := (Lib.mapM_eq_ok hfound).1
  have hpast : pastLast ((kept include_.mode idx found).map Prod.snd) ≤ found.length ∧ _ :=
    pastLast_eq_iff
  obtain ⟨hle, hiff⟩ := hpast
  rw [← hsteps, hlen] at hle hiff
  have hends : PlaysLast include_.mode found → EndsAtLast block build.resume := by
    intro hlast
    unfold EndsAtLast
    rw [hiff.mpr hlast, hprogress]
    exact hof.progress_last
  refine ⟨hends, fun b hbody hresume => ⟨fun hend => ?_, hends⟩⟩
  refine hiff.mp (le_antisymm hle (not_lt.mp fun hlt => ?_))
  unfold EndsAtLast at hend
  rw [hprogress] at hend
  unfold Env.drawn at hbuild
  simp only [hbody, Option.some.injEq] at hbuild
  exact progress_ne_resume hresume hbuild hlt hend

end End

def filmEnv : Env Unit where
  station :=
    { cat := { resolveQuery := fun _ => .ok ["f", "g"] }
      variety := { dice := fun _ _ => { seed := 0 } } }
  seed _ := 0
  nextRollover _ _ := none
  catalogItem _ id := .ok (some (clip id 1).1)
  known _ := some 3600000000000
  tailLengths ids := ids.map fun _ => 3600000000000
  nominal := 3600000000000

/-- A film a cycle for two cycles, of which `mode` keeps what it keeps. -/
def doubleBill (mode : Mode) : BlockInclude Unit where
  body := .pattern {
    pools := [{ name := "films", expr := some "films", advance := .resume }]
    pattern := [{ pool := "films", take := .count 1 }]
    cycles := some 2 }
  mode

theorem resolveBlock_endsAtLast_doubleBill : ∃ build found block pools lists,
    filmEnv.drawn (doubleBill (.count 2)) {} none 0 none = some (.ok build) ∧
    build.ids.mapM (filmEnv.catalogItem 0) = .ok found ∧
    filmEnv.resolveBlock (doubleBill (.count 2)) 0 0 {} none 0 none = .ok (block, pools, lists) ∧
    build.ids.length = 2 ∧ EndsAtLast block pools := by
  have hdrawn : ((filmEnv.drawn (doubleBill (.count 2)) {} none 0 none).bind (·.toOption)).map
      (·.ids) = some ["f", "g"] := by decide
  have hok : (filmEnv.resolveBlock (doubleBill (.count 2)) 0 0 {} none 0 none).isOk = true := by
    decide
  obtain ⟨build, hbind, hids⟩ := Option.map_eq_some_iff.mp hdrawn
  obtain ⟨run, hbuild, hrun⟩ := Option.bind_eq_some_iff.mp hbind
  cases run with
  | error e => cases hrun
  | ok built =>
    obtain rfl := Option.some.inj hrun
    cases h : filmEnv.resolveBlock (doubleBill (.count 2)) 0 0 {} none 0 none with
    | error e => simp [h, Except.isOk, Except.toBool] at hok
    | ok result =>
      obtain ⟨block, pools, lists⟩ := result
      have hfound : built.ids.mapM (filmEnv.catalogItem 0) =
          .ok [some (clip "f" 1).1, some (clip "g" 1).1] := by
        rw [hids]
        rfl
      have hlast : PlaysLast (doubleBill (.count 2)).mode
          [some (clip "f" 1).1, some (clip "g" 1).1] := by
        intro last hlast
        obtain rfl : some (clip "g" 1).1 = last := Option.some.inj hlast
        exact ⟨rfl, le_rfl⟩
      refine ⟨built, _, block, pools, lists, hbuild, hfound, rfl, by rw [hids]; rfl, ?_⟩
      exact (resolveBlock_endsAtLast hbuild hfound h).1 hlast

/-- Cut to one film of the two drawn, the block hands on the state after both. -/
theorem doubleBill_skips : ∃ block pools lists,
    filmEnv.resolveBlock (doubleBill (.count 1)) 0 0 {} none 0 none = .ok (block, pools, lists) ∧
    block.items.map (·.id) = ["f"] ∧ ¬ EndsAtLast block pools := by
  have hrun : (filmEnv.resolveBlock (doubleBill (.count 1)) 0 0 {} none 0 none).toOption.map
      (fun r => (r.1.items.map (·.id), r.1.poolProgress[pastLast r.1.steps]? == some r.2.1)) =
        some (["f"], false) := by decide
  cases h : filmEnv.resolveBlock (doubleBill (.count 1)) 0 0 {} none 0 none with
  | error e => simp [h, Except.toOption] at hrun
  | ok result =>
    obtain ⟨block, pools, lists⟩ := result
    simp only [h, Except.toOption, Option.map_some, Option.some.injEq, Prod.mk.injEq] at hrun
    refine ⟨block, pools, lists, rfl, hrun.1, fun hend => ?_⟩
    unfold EndsAtLast at hend
    rw [hend] at hrun
    simp at hrun

end EtvStation.Resolve
