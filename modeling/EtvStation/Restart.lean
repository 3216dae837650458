import EtvStation.CatchUp

/-! A chain of generations stopped part-way and taken up again from what is on disk. -/
namespace EtvStation

open Bumper

variable {β : Type}

namespace TickEnv

variable (env : TickEnv β)

/-- The same tick with nothing that fails. -/
def calm : TickEnv β := { env with fails := fun _ => false }

variable {env}

/-- One turn of the chunk loop: the chunk is read, and written again with what overlaps it. -/
theorem emitChunks_step (n : ℕ) (rule : Sequential β) (anchor to_ : ℤ) (fuel : ℕ) (cursor : ℤ)
    (s : Store β) :
    (env.emitChunks n rule anchor to_ (fuel + 1) cursor).run s =
      if cursor < to_ then
        match readChunkItems env.os s.folder (env.grid.boundary cursor) with
        | .error (.corrupt name) => .error (.corrupt name) s
        | .ok stored =>
          let items := stored ++
            rule.itemsCovering anchor cursor (env.grid.next (env.grid.boundary cursor))
          let file := chunkFile (env.grid.boundary cursor)
            (env.grid.next (env.grid.boundary cursor)) items
          if items.isEmpty then .ok () s
          else if env.fails (.writeChunk n (env.grid.boundary cursor)) then
            .error (.io (.writeChunk n (env.grid.boundary cursor))) s
          else
            (env.emitChunks n rule anchor to_ fuel
              (env.grid.next (env.grid.boundary cursor))).run
                { s with folder := removeOtherChunkFiles env.os (writeFile s.folder file) file }
      else .ok () s := by
  have hget : ∀ f : Store β → EStateM Fault (Store β) Unit,
      (get >>= f).run s = (f s).run s := fun _ => rfl
  rw [emitChunks]
  by_cases hmore : cursor < to_
  · rw [if_pos hmore, if_pos hmore]
    dsimp only
    rw [hget]
    cases readChunkItems env.os s.folder (env.grid.boundary cursor) with
    | error e =>
      obtain ⟨name⟩ := e
      rfl
    | ok stored =>
      dsimp only
      generalize stored ++ rule.itemsCovering anchor cursor
        (env.grid.next (env.grid.boundary cursor)) = items
      cases items.isEmpty with
      | true => rfl
      | false =>
        unfold attempt
        cases env.fails (.writeChunk n (env.grid.boundary cursor)) <;> rfl
  · rw [if_neg hmore, if_neg hmore]
    rfl

/-- What a chunk loop that returns has written, and that it does the same where nothing fails. -/
theorem emitChunks_ok {n : ℕ} {rule : Sequential β} {anchor to_ : ℤ} {fuel : ℕ} {cursor : ℤ}
    {s s' : Store β}
    (h : (env.emitChunks n rule anchor to_ fuel cursor).run s = .ok () s') (m : ℕ) :
    (env.calm.emitChunks m rule anchor to_ fuel cursor).run s = .ok () s' ∧
      s' = { s with folder := s'.folder } ∧
      ∃ written, emitLoop env.os env.grid rule anchor to_ fuel cursor s.folder =
        .ok (written, s'.folder) := by
  induction fuel generalizing cursor s with
  | zero =>
    obtain rfl : s = s' := (EStateM.Result.ok.inj h).2
    exact ⟨rfl, rfl, [], rfl⟩
  | succ fuel ih =>
    rw [emitChunks_step] at h
    rw [emitChunks_step, emitLoop]
    by_cases hmore : cursor < to_
    · rw [if_pos hmore] at h
      rw [if_pos hmore, if_pos hmore]
      cases hread : readChunkItems env.os s.folder (env.grid.boundary cursor) with
      | error e =>
        obtain ⟨name⟩ := e
        rw [hread] at h
        cases h
      | ok stored =>
        have hcalm : readChunkItems env.calm.os s.folder (env.calm.grid.boundary cursor) =
            .ok stored := hread
        rw [hread] at h
        rw [hcalm]
        simp only [Lib.ok_bind, hread] at h ⊢
        by_cases hempty : (stored ++ rule.itemsCovering anchor cursor
            (env.grid.next (env.grid.boundary cursor))).isEmpty = true
        · rw [if_pos hempty] at h
          obtain rfl : s = s' := (EStateM.Result.ok.inj h).2
          refine ⟨if_pos hempty, rfl, [], ?_⟩
          rw [if_pos hempty]
          rfl
        · rw [if_neg hempty] at h
          split_ifs at h
          obtain ⟨hrest, hsame, written, hloop⟩ := ih h
          refine ⟨?_, hsame, chunkFile (env.grid.boundary cursor)
            (env.grid.next (env.grid.boundary cursor)) (stored ++ rule.itemsCovering anchor cursor
              (env.grid.next (env.grid.boundary cursor))) :: written, ?_⟩
          · refine (if_neg hempty).trans ?_
            exact hrest
          · rw [if_neg hempty, hloop]
            rfl
    · rw [if_neg hmore] at h
      rw [if_neg hmore, if_neg hmore]
      obtain rfl : s = s' := (EStateM.Result.ok.inj h).2
      exact ⟨rfl, rfl, [], rfl⟩

/-- The tick does not depend on how many generations it has run. -/
structure Steady (env : TickEnv β) : Prop where
  generate_eq : ∀ n, env.generate n = env.generate 0

/-- One generation, store by store: the chunk files, the overlay timeline, the ledger's one
transaction, the sidecar. -/
theorem generation_run (n : ℕ) (from_ : ℤ) (first : Bool) (resume : ResumeMap) (s : Store β) :
    (env.generation n from_ first resume).run s =
      match env.generate n s.ledger (resume.checkpoint from_) from_ env.target with
      | .error message => .error (.generate message) s
      | .ok (laid, showIds, out) =>
        let g : Generation β := ⟨laid, out.toProgress, showIds⟩
        let h := g.hand env.fill env.anchor first from_
        let next := ((resume.checkpoint from_).checkpointAll from_
          (g.boundaries env.fill env.anchor first from_)).adopt out env.now
        if h.span from_ ≤ 0 then .ok none s
        else match (env.emitChunks n h.rule h.seqStart (from_ + h.span from_)
            (h.span from_).toNat from_).run s with
          | .error e s₁ => .error e s₁
          | .ok () s₁ =>
            if env.fails (.appendOverlay n) then .error (.io (.appendOverlay n)) s₁
            else if env.fails (.record n) then .error (.io (.record n)) s₁
            else
              let s₂ := { s₁ with ledger := s₁.ledger ++ g.records h from_ }
              if env.fails (.save (.generation n)) then .error (.io (.save (.generation n))) s₂
              else .ok (some (next, h.span from_)) { s₂ with sidecar := next } := by
  have hget : ∀ f : Store β → EStateM Fault (Store β) (Option (ResumeMap × ℤ)),
      (get >>= f).run s = (f s).run s := fun _ => rfl
  unfold generation
  dsimp only
  rw [hget]
  cases env.generate n s.ledger (resume.checkpoint from_) from_ env.target with
  | error message => rfl
  | ok result =>
    obtain ⟨laid, showIds, out⟩ := result
    dsimp only
    generalize (⟨laid, out.toProgress, showIds⟩ : Generation β).hand env.fill env.anchor first
      from_ = hand
    by_cases hspan : hand.span from_ ≤ 0
    · rw [if_pos hspan, if_pos hspan]
      rfl
    rw [if_neg hspan, if_neg hspan, EStateM.run_bind]
    cases (env.emitChunks n hand.rule hand.seqStart (from_ + hand.span from_)
        (hand.span from_).toNat from_).run s with
    | error e s₁ => rfl
    | ok u s₁ =>
      unfold attempt
      cases env.fails (.appendOverlay n) with
      | true => rfl
      | false =>
        cases env.fails (.record n) with
        | true => rfl
        | false => cases env.fails (.save (.generation n)) <;> rfl

/-- What a generation that is completed has done to each of the stores. -/
theorem generation_ok {n : ℕ} {from_ span : ℤ} {first : Bool} {resume next : ResumeMap}
    {s s' : Store β}
    (h : (env.generation n from_ first resume).run s = .ok (some (next, span)) s') :
    ∃ laid showIds out, env.generate n s.ledger (resume.checkpoint from_) from_ env.target =
        .ok (laid, showIds, out) ∧
      let g : Generation β := ⟨laid, out.toProgress, showIds⟩
      let h := g.hand env.fill env.anchor first from_
      span = h.span from_ ∧ 0 < span ∧
      (∃ written, emitLoop env.os env.grid h.rule h.seqStart (from_ + span) span.toNat from_
        s.folder = .ok (written, s'.folder)) ∧
      s'.ledger = s.ledger ++ g.records h from_ ∧ s'.sidecar = next := by
  rw [generation_run] at h
  cases hgen : env.generate n s.ledger (resume.checkpoint from_) from_ env.target with
  | error message =>
    rw [hgen] at h
    cases h
  | ok result =>
    obtain ⟨laid, showIds, out⟩ := result
    rw [hgen] at h
    dsimp only at h
    refine ⟨laid, showIds, out, rfl, ?_⟩
    dsimp only
    generalize (⟨laid, out.toProgress, showIds⟩ : Generation β).hand env.fill env.anchor first
      from_ = hand at h ⊢
    by_cases hspan : hand.span from_ ≤ 0
    · rw [if_pos hspan] at h
      cases (EStateM.Result.ok.inj h).1
    rw [if_neg hspan] at h
    cases hemit : (env.emitChunks n hand.rule hand.seqStart (from_ + hand.span from_)
        (hand.span from_).toNat from_).run s with
    | error e s₁ =>
      rw [hemit] at h
      cases h
    | ok u s₁ =>
      rw [hemit] at h
      dsimp only at h
      split_ifs at h
      obtain ⟨hsome, rfl⟩ := EStateM.Result.ok.inj h
      obtain ⟨rfl, rfl⟩ := Prod.mk.inj (Option.some.inj hsome)
      obtain ⟨-, hsame, hwritten⟩ := emitChunks_ok hemit n
      refine ⟨rfl, not_le.mp hspan, hwritten, ?_, rfl⟩
      rw [hsame]

theorem generation_none {n : ℕ} {from_ : ℤ} {first : Bool} {resume : ResumeMap} {s s' : Store β}
    (h : (env.generation n from_ first resume).run s = .ok none s') : s' = s := by
  rw [generation_run] at h
  cases hgen : env.generate n s.ledger (resume.checkpoint from_) from_ env.target with
  | error message =>
    rw [hgen] at h
    cases h
  | ok result =>
    obtain ⟨laid, showIds, out⟩ := result
    rw [hgen] at h
    dsimp only at h
    generalize (⟨laid, out.toProgress, showIds⟩ : Generation β).hand env.fill env.anchor first
      from_ = hand at h
    by_cases hspan : hand.span from_ ≤ 0
    · rw [if_pos hspan] at h
      exact (EStateM.Result.ok.inj h).2.symm
    rw [if_neg hspan] at h
    cases hemit : (env.emitChunks n hand.rule hand.seqStart (from_ + hand.span from_)
        (hand.span from_).toNat from_).run s with
    | error e s₁ =>
      rw [hemit] at h
      cases h
    | ok u s₁ =>
      rw [hemit] at h
      dsimp only at h
      split_ifs at h
      cases (EStateM.Result.ok.inj h).1

theorem calm_emitChunks (m : ℕ) (rule : Sequential β) (anchor to_ : ℤ) (fuel : ℕ) (cursor : ℤ)
    (s : Store β) : (env.calm.emitChunks m rule anchor to_ fuel cursor).run s =
      (env.calm.emitChunks 0 rule anchor to_ fuel cursor).run s := by
  induction fuel generalizing cursor s with
  | zero => rfl
  | succ fuel ih =>
    rw [emitChunks_step, emitChunks_step]
    simp only [ih]
    rfl

theorem calm_generation_run (n : ℕ) (from_ : ℤ) (first : Bool) (resume : ResumeMap)
    (s : Store β) : (env.calm.generation n from_ first resume).run s =
      match env.generate n s.ledger (resume.checkpoint from_) from_ env.target with
      | .error message => .error (.generate message) s
      | .ok (laid, showIds, out) =>
        let g : Generation β := ⟨laid, out.toProgress, showIds⟩
        let h := g.hand env.fill env.anchor first from_
        let next := ((resume.checkpoint from_).checkpointAll from_
          (g.boundaries env.fill env.anchor first from_)).adopt out env.now
        if h.span from_ ≤ 0 then .ok none s
        else match (env.calm.emitChunks n h.rule h.seqStart (from_ + h.span from_)
            (h.span from_).toNat from_).run s with
          | .error e s₁ => .error e s₁
          | .ok () s₁ => .ok (some (next, h.span from_))
              ⟨s₁.folder, s₁.ledger ++ g.records h from_, next⟩ :=
  generation_run n from_ first resume s

/-- Where nothing fails it does not matter which generation of the tick this one is. -/
theorem calm_generation (h : env.Steady) (m : ℕ) (from_ : ℤ) (first : Bool) (resume : ResumeMap)
    (s : Store β) : (env.calm.generation m from_ first resume).run s =
      (env.calm.generation 0 from_ first resume).run s := by
  rw [calm_generation_run, calm_generation_run, h.generate_eq m]
  simp only [calm_emitChunks m]

/-- A generation that returns does the same where nothing fails. -/
theorem generation_calm {n : ℕ} {from_ : ℤ} {first : Bool} {resume : ResumeMap}
    {s s' : Store β} {out : Option (ResumeMap × ℤ)}
    (h : (env.generation n from_ first resume).run s = .ok out s') :
    (env.calm.generation n from_ first resume).run s = .ok out s' := by
  rw [generation_run] at h
  rw [calm_generation_run]
  cases hgen : env.generate n s.ledger (resume.checkpoint from_) from_ env.target with
  | error message =>
    rw [hgen] at h
    cases h
  | ok result =>
    obtain ⟨laid, showIds, next⟩ := result
    rw [hgen] at h
    dsimp only at h ⊢
    generalize (⟨laid, next.toProgress, showIds⟩ : Generation β).hand env.fill env.anchor first
      from_ = hand at h ⊢
    by_cases hspan : hand.span from_ ≤ 0
    · rwa [if_pos hspan] at h ⊢
    rw [if_neg hspan] at h ⊢
    cases hemit : (env.emitChunks n hand.rule hand.seqStart (from_ + hand.span from_)
        (hand.span from_).toNat from_).run s with
    | error e s₁ =>
      rw [hemit] at h
      cases h
    | ok u s₁ =>
      rw [hemit] at h
      rw [(emitChunks_ok hemit n).1]
      dsimp only at h ⊢
      split_ifs at h
      exact h

/-- Before its first chunk file is renamed into place a generation has touched nothing. -/
def StopsEarly (env : TickEnv β) (n : ℕ) (from_ : ℤ) (resume : ResumeMap) (s : Store β) : Prop :=
  (∃ message, env.generate n s.ledger (resume.checkpoint from_) from_ env.target =
    .error message) ∨ env.fails (.writeChunk n (env.grid.boundary from_)) = true

end TickEnv

/-- Where the chain of generations stands: where the next one begins, whether it is the channel's
first, the state it enters with, and what is on disk. -/
structure Point (β : Type) where
  from_ : ℤ
  first : Bool
  resume : ResumeMap
  disk : Store β

/-- The lists the generations of a chain from `p` hand on, of `fuel` generations at the most. -/
def TickEnv.handedFrom (env : TickEnv β) : (fuel n : ℕ) → Point β → List (Sequential β)
  | 0, _, _ => []
  | fuel + 1, n, p =>
    if p.from_ < env.target then
      match env.generate n p.disk.ledger (p.resume.checkpoint p.from_) p.from_ env.target with
      | .error _ => []
      | .ok (laid, showIds, out) =>
        ((⟨laid, out.toProgress, showIds⟩ : Generation β).hand env.fill env.anchor p.first
            p.from_).rule ::
          match (env.generation n p.from_ p.first p.resume).run p.disk with
          | .ok (some (next, span)) disk =>
            env.handedFrom fuel (n + 1) ⟨p.from_ + span, false, next, disk⟩
          | _ => []
    else []

def TickEnv.Measured (env : TickEnv β) (fuel n : ℕ) (p : Point β) : Prop :=
  ∀ rule ∈ env.handedFrom fuel n p, Sequential.Measured rule

instance (env : TickEnv β) (fuel n : ℕ) (p : Point β) : Decidable (env.Measured fuel n p) :=
  inferInstanceAs (Decidable (∀ _ ∈ _, _))

/-- Generations completed one after another, numbered from `n`. -/
inductive Completed (env : TickEnv β) : (n k : ℕ) → Point β → Point β → Prop where
  | nil (n : ℕ) (p : Point β) : Completed env n 0 p p
  | cons {n k : ℕ} {p q : Point β} {next : ResumeMap} {span : ℤ} {disk : Store β}
      (more : p.from_ < env.target)
      (run : (env.generation n p.from_ p.first p.resume).run p.disk = .ok (some (next, span)) disk)
      (rest : Completed env (n + 1) k ⟨p.from_ + span, false, next, disk⟩ q) :
      Completed env n (k + 1) p q

def programmes (rule : Sequential β) (from_ : ℤ) : List (String × ℤ) :=
  (rule.itemSpans from_).filterMap fun e => if e.1.bumper.isSome then none else some (e.1.id, e.2.1)

/-- From `p` to `q` the items of `rule` have been laid end to end, each in the file of every chunk
it overlaps and in no other, and each programme of them has its one row. -/
structure Lays (grid : ChunkGrid) (before : List (PlayoutItem β)) (rule : Sequential β)
    (p q : Point β) : Prop where
  positive : ∀ e ∈ rule, 0 < e.2
  ends : q.from_ = p.from_ + rule.walked
  stored : Stored grid (fun _ => before ++ rule.laid p.from_) q.disk.folder
  rows : q.disk.ledger.map (fun r => (r.entryId, r.start)) =
    p.disk.ledger.map (fun r => (r.entryId, r.start)) ++ programmes rule p.from_

section Chain

variable {env : TickEnv β} {before : List (PlayoutItem β)} {p q : Point β}

theorem programmes_append (rule rule' : Sequential β) (from_ : ℤ) :
    programmes (rule ++ rule') from_ =
      programmes rule from_ ++ programmes rule' (from_ + rule.walked) := by
  rw [programmes, Sequential.itemSpans_append, List.filterMap_append]
  rfl

theorem map_playRecords (showIds : String → Option String) (from_ : ℤ) (rule : Sequential β) :
    (playRecords showIds from_ rule).map (fun r => (r.entryId, r.start)) =
      programmes rule from_ := by
  rw [playRecords, programmes, List.map_filterMap]
  refine List.filterMap_congr fun e _ => ?_
  split_ifs <;> rfl

theorem mem_handedFrom {fuel n : ℕ} {laid : Laid β} {showIds : String → Option String}
    {out : ResumeMap} (hmore : p.from_ < env.target)
    (hgen : env.generate n p.disk.ledger (p.resume.checkpoint p.from_) p.from_ env.target =
      .ok (laid, showIds, out)) :
    ((⟨laid, out.toProgress, showIds⟩ : Generation β).hand env.fill env.anchor p.first
      p.from_).rule ∈ env.handedFrom (fuel + 1) n p := by
  rw [TickEnv.handedFrom, if_pos hmore, hgen]
  exact List.mem_cons_self

/-- After a completed generation the chain hands on the rest of its lists. -/
theorem handedFrom_subset {fuel n : ℕ} {next : ResumeMap} {span : ℤ} {disk : Store β}
    (hmore : p.from_ < env.target)
    (run : (env.generation n p.from_ p.first p.resume).run p.disk = .ok (some (next, span)) disk) :
    env.handedFrom fuel (n + 1) ⟨p.from_ + span, false, next, disk⟩ ⊆
      env.handedFrom (fuel + 1) n p := by
  obtain ⟨laid, showIds, out, hgen, -⟩ := TickEnv.generation_ok run
  rw [TickEnv.handedFrom, if_pos hmore, hgen, run]
  exact List.subset_cons_self _ _

/-- A chain is measured where every list that its channel resolves to is. -/
theorem measured_of_lists (h : ∀ n ledger resume from_ target laid showIds next,
      env.generate n ledger resume from_ target = .ok (laid, showIds, next) → ∀ first,
        Sequential.Measured ((⟨laid, next.toProgress, showIds⟩ : Generation β).hand env.fill
          env.anchor first from_).rule) (fuel n : ℕ) (p : Point β) : env.Measured fuel n p := by
  induction fuel generalizing n p with
  | zero => exact fun rule hrule => absurd hrule List.not_mem_nil
  | succ fuel ih =>
    intro rule hrule
    rw [TickEnv.handedFrom] at hrule
    split_ifs at hrule
    · split at hrule
      · exact absurd hrule List.not_mem_nil
      · rename_i hgen
        rcases List.mem_cons.mp hrule with rfl | hrule
        · exact h _ _ _ _ _ _ _ _ hgen p.first
        · split at hrule
          · exact ih _ _ rule hrule
          · exact absurd hrule List.not_mem_nil
    · exact absurd hrule List.not_mem_nil

theorem Completed.measured {n k fuel : ℕ} (h : Completed env n k p q)
    (hmeasured : env.Measured (fuel + k) n p) : env.Measured fuel (n + k) q := by
  induction h with
  | nil => exact hmeasured
  | @cons n k p q next span disk more run rest ih =>
    rw [show n + (k + 1) = n + 1 + k by omega]
    exact ih fun rule hrule => hmeasured rule (handedFrom_subset more run hrule)

theorem handedFrom_mono {fuel fuel' n : ℕ} (h : fuel ≤ fuel') :
    env.handedFrom fuel n p ⊆ env.handedFrom fuel' n p := by
  induction fuel generalizing fuel' n p with
  | zero => exact List.nil_subset _
  | succ fuel ih =>
    obtain ⟨more, rfl⟩ : ∃ more, fuel' = more + 1 := ⟨fuel' - 1, by omega⟩
    rw [TickEnv.handedFrom, TickEnv.handedFrom]
    split_ifs
    · cases env.generate n p.disk.ledger (p.resume.checkpoint p.from_) p.from_ env.target with
      | error message => exact List.Subset.refl _
      | ok result =>
        refine List.cons_subset_cons _ ?_
        split
        · exact ih (by omega)
        · exact List.Subset.refl _
    · exact List.Subset.refl _

/-- One completed generation lays its items. -/
theorem generation_lays (hremoves : ∀ f, env.os.removes f)
    (hstored : Stored env.grid (fun _ => before) p.disk.folder)
    (hjoin : env.anchor = none ∨ p.first = false) (hmore : p.from_ < env.target) {fuel n : ℕ}
    (hmeasured : env.Measured (fuel + 1) n p) {next : ResumeMap}
    {span : ℤ} {disk : Store β}
    (run : (env.generation n p.from_ p.first p.resume).run p.disk = .ok (some (next, span)) disk) :
    0 < span ∧ disk.sidecar = next ∧
      ∃ rule, Lays env.grid before rule p ⟨p.from_ + span, false, next, disk⟩ := by
  obtain ⟨laid, showIds, out, hgen, hspan, hpos, ⟨written, hemit⟩, hledger, hsidecar⟩ :=
    TickEnv.generation_ok run
  obtain ⟨hpositive, hwalked⟩ := hmeasured _ (mem_handedFrom hmore hgen)
  obtain ⟨hstart, hall, htotal⟩ :=
    hand_top ⟨laid, out.toProgress, showIds⟩ env.fill hjoin p.from_
  rw [hwalked] at htotal
  generalize (⟨laid, out.toProgress, showIds⟩ : Generation β).hand env.fill env.anchor p.first
    p.from_ = hand at *
  refine ⟨hpos, hsidecar, hand.rule, hpositive, ?_, ?_, ?_⟩
  · dsimp only
    omega
  · have hloop : ∃ written folder', emitLoop env.os env.grid hand.rule p.from_
        (p.from_ + hand.rule.walked) span.toNat p.from_ p.disk.folder =
          .ok (written, folder') ∧ _ :=
      emitLoop_stored hremoves hpositive (by omega) hstored
    obtain ⟨written', folder', hloop, hafter⟩ := hloop
    rw [hstart, hspan, htotal] at hemit
    rw [hspan, htotal] at hloop
    obtain ⟨-, hfolder⟩ := Prod.mk.inj (Except.ok.inj (hemit.symm.trans hloop))
    dsimp only
    rwa [hfolder]
  · dsimp only
    rw [hledger, List.map_append, Generation.records, map_playRecords, hall]

theorem laid_append (rule rule' : Sequential β) (from_ : ℤ) :
    (rule ++ rule').laid from_ = rule.laid from_ ++ rule'.laid (from_ + rule.walked) := by
  rw [Sequential.laid, Sequential.itemSpans_append, List.map_append]
  rfl

theorem laid_finish {rule : Sequential β} {from_ : ℤ} {a : PlayoutItem β}
    (h : a ∈ rule.laid from_) : a.finish ≤ from_ + rule.walked :=
  ((rule.laid_covers from_).mem h).2.2

theorem Completed.first_false {n k : ℕ} (h : Completed env n k p q) (hp : p.first = false) :
    q.first = false := by
  induction h with
  | nil => exact hp
  | cons _ _ _ ih => exact ih rfl

/-- A chain of completed generations lays all of their items, and leaves the sidecar with the
state the next one enters with. -/
theorem Completed.lays {n k : ℕ} (h : Completed env n k p q) (hremoves : ∀ f, env.os.removes f)
    (hmeasured : env.Measured k n p)
    (hstored : Stored env.grid (fun _ => before) p.disk.folder)
    (hsync : p.disk.sidecar = p.resume) (hjoin : env.anchor = none ∨ p.first = false) :
    q.disk.sidecar = q.resume ∧ (k ≠ 0 → q.first = false) ∧
      ∃ rule, Lays env.grid before rule p q ∧ (k ≠ 0 → rule ≠ []) := by
  induction h generalizing before with
  | nil n p =>
    refine ⟨hsync, fun h => absurd rfl h, [], ⟨by simp, ?_, ?_, ?_⟩, fun h => absurd rfl h⟩
    · simp [Sequential.walked]
    · simpa [Sequential.laid, Sequential.itemSpans] using hstored
    · simp [programmes, Sequential.itemSpans]
  | @cons n k p q next span disk more run rest ih =>
    obtain ⟨hpos, hsidecar, rule, hlays⟩ :=
      generation_lays hremoves hstored hjoin more hmeasured run
    obtain ⟨hsync', -, rule', hlays', -⟩ :=
      ih (fun rule hrule => hmeasured rule (handedFrom_subset more run hrule)) hlays.stored hsidecar
        (Or.inr rfl)
    have hends := hlays.ends
    dsimp only at hends
    have hmid := hlays'.ends
    have hstored' := hlays'.stored
    have hrows := hlays'.rows
    dsimp only at hmid hstored' hrows
    rw [hends] at hmid hstored' hrows
    have hfirst : q.first = false := rest.first_false rfl
    refine ⟨hsync', fun _ => hfirst, rule ++ rule', ⟨?_, ?_, ?_, ?_⟩, fun _ => ?_⟩
    · intro e he
      exact (List.mem_append.mp he).elim (hlays.positive e) (hlays'.positive e)
    · rw [Sequential.walked_append, hmid]
      omega
    · rw [laid_append, ← List.append_assoc]
      exact hstored'
    · rw [programmes_append, hrows, hlays.rows, List.append_assoc]
    · intro hnil
      have hnone := (List.append_eq_nil_iff.mp hnil).1
      rw [hnone] at hends
      simp only [Sequential.walked, List.map_nil, List.sum_nil] at hends
      omega

/-- What is written ends where the last item of it does. -/
theorem highestFinish_stored (os : Os β) {grid : ChunkGrid} {all : List (PlayoutItem β)}
    {folder : Folder β} (h : Stored grid (fun _ => all) folder)
    (hpos : ∀ a ∈ all, a.start < a.finish) {end_ : ℤ} (hle : ∀ a ∈ all, a.finish ≤ end_)
    {z : PlayoutItem β} (hz : z ∈ all) (hend : z.finish = end_) :
    highestFinish (scanOutputFolder os folder) = some end_ := by
  have hbehind := grid.boundary_le (end_ - 1)
  have hahead := grid.lt_next (end_ - 1)
  have hboundary := grid.boundary_boundary (end_ - 1)
  set c := grid.boundary (end_ - 1) with hc
  have hzc : z ∈ chunkItems grid all c := by
    refine mem_chunkItems.mpr ⟨hz, ?_, ?_⟩
    · have := hpos z hz
      omega
    · omega
  have hne : chunkItems grid all c ≠ [] := List.ne_nil_of_mem hzc
  -- Every file's chunk begins by `c`, and its items and name end by `end_`.
  have hfile : ∀ f ∈ folder, f.start ≤ c ∧ f.finish ≤ end_ := by
    intro f hf
    obtain ⟨d, hd, hof⟩ := (h.file f).mp hf
    obtain ⟨rfl, hitems, hsome⟩ := fileOf_start hof
    have hlast := List.getLast?_eq_some_getLast hsome
    have hmem := mem_chunkItems.mp (List.getLast_mem hsome)
    have hfinish := hle _ hmem.1
    constructor
    · by_contra hlater
      have := grid.next_le hboundary hd (not_le.mp hlater)
      omega
    · rw [fileOf, if_neg hsome] at hof
      rw [← Option.some.inj hof, chunkFile_finish hlast]
      exact (min_le_left _ _).trans hfinish
  have hfc : chunkFile c (grid.next c) (chunkItems grid all c) ∈ folder :=
    (h.file _).mpr ⟨c, hboundary, by rw [fileOf, if_neg hne]⟩
  have hsorted : (scanOutputFolder os folder).Pairwise fun a b => a.start ≤ b.start :=
    List.pairwise_insertionSort _ _
  have hfc' := (mem_scanOutputFolder os).mpr hfc
  have hscan : scanOutputFolder os folder ≠ [] := List.ne_nil_of_mem hfc'
  have hsplit := List.dropLast_append_getLast hscan
  set last := (scanOutputFolder os folder).getLast hscan with hlastdef
  have hlastmem : last ∈ folder := (mem_scanOutputFolder os).mp (List.getLast_mem hscan)
  have hlater : c ≤ last.start := by
    rw [← hsplit] at hfc' hsorted
    rcases List.mem_append.mp hfc' with hin | hin
    · exact (List.pairwise_append.mp hsorted).2.2 _ hin last (List.mem_singleton_self _)
    · rw [← List.mem_singleton.mp hin]
      exact le_rfl
  have hlast : last = chunkFile c (grid.next c) (chunkItems grid all c) :=
    h.unique hlastmem hfc (le_antisymm (hfile last hlastmem).1 hlater)
  have hitems : ((last.items.getD []).map (·.finish)).max? = some end_ := by
    rw [hlast]
    refine List.max?_eq_some_iff.mpr ⟨?_, fun b hb => ?_⟩
    · exact List.mem_map.mpr ⟨z, hzc, hend⟩
    · obtain ⟨a, ha, rfl⟩ := List.mem_map.mp hb
      exact hle a (mem_chunkItems.mp ha).1
  have hends : ∀ f ∈ folder, f.finish ≤ end_ ∧ ∀ a ∈ f.items.getD [], a.finish ≤ end_ := by
    intro f hf
    obtain ⟨d, -, hof⟩ := (h.file f).mp hf
    refine ⟨(hfile f hf).2, fun a ha => ?_⟩
    rw [(fileOf_start hof).2.1] at ha
    exact hle a (mem_chunkItems.mp ha).1
  have hreaches : highestFinish (scanOutputFolder os folder) =
      some (max (((scanOutputFolder os folder).dropLast.map (·.finish)).max?.getD last.finish)
        (max last.finish end_)) := by
    unfold highestFinish
    rw [List.getLast?_eq_some_getLast hscan, Option.map_some, ← hlastdef]
    dsimp only
    rw [hitems, Option.getD_some]
  rw [hreaches]
  exact congrArg some (le_antisymm (highestFinish_le os hends _ hreaches)
    ((le_max_right _ _).trans (le_max_right _ _)))

/-- A generation whose first chunk write fails has left everything as it was. -/
theorem stopsEarly_error (hjoin : env.anchor = none ∨ p.first = false)
    (hmore : p.from_ < env.target) {fuel n : ℕ}
    (hmeasured : env.calm.Measured (fuel + 1) n p) {e : Fault}
    {disk : Store β} (hearly : env.StopsEarly n p.from_ p.resume p.disk)
    (h : (env.generation n p.from_ p.first p.resume).run p.disk = .error e disk) :
    disk = p.disk := by
  rw [TickEnv.generation_run] at h
  cases hgen : env.generate n p.disk.ledger (p.resume.checkpoint p.from_) p.from_ env.target with
  | error message =>
    rw [hgen] at h
    exact (EStateM.Result.error.inj h).2.symm
  | ok result =>
    obtain ⟨laid, showIds, out⟩ := result
    have hfails : env.fails (.writeChunk n (env.grid.boundary p.from_)) = true := by
      rcases hearly with ⟨message, hmessage⟩ | hfails
      · rw [hgen] at hmessage
        cases hmessage
      · exact hfails
    rw [hgen] at h
    dsimp only at h
    obtain ⟨hstart, -, htotal⟩ :=
      hand_top ⟨laid, out.toProgress, showIds⟩ env.fill hjoin p.from_
    obtain ⟨-, hwalked⟩ := hmeasured _ (mem_handedFrom hmore hgen)
    simp only [TickEnv.calm] at hwalked
    rw [hwalked] at htotal
    generalize (⟨laid, out.toProgress, showIds⟩ : Generation β).hand env.fill env.anchor p.first
      p.from_ = hand at h hstart htotal
    by_cases hspan : hand.span p.from_ ≤ 0
    · rw [if_pos hspan] at h
      cases h
    rw [if_neg hspan] at h
    obtain ⟨fuel, hfuel⟩ : ∃ fuel, (hand.span p.from_).toNat = fuel + 1 :=
      ⟨(hand.span p.from_).toNat - 1, by omega⟩
    rw [hfuel, TickEnv.emitChunks_step, if_pos (by omega)] at h
    cases hread : readChunkItems env.os p.disk.folder (env.grid.boundary p.from_) with
    | error fault =>
      obtain ⟨name⟩ := fault
      rw [hread] at h
      exact (EStateM.Result.error.inj h).2.symm
    | ok stored =>
      rw [hread] at h
      have hcovered : (stored ++ hand.rule.itemsCovering hand.seqStart p.from_
          (env.grid.next (env.grid.boundary p.from_))).isEmpty = false := by
        have hlt := env.grid.lt_next p.from_
        obtain ⟨a, ha, hlo, hhi⟩ := (hand.rule.laid_covers hand.seqStart).exists_at
          (show hand.seqStart ≤ p.from_ by omega) (by omega)
        obtain ⟨item, hitem, rfl⟩ := List.mem_map.mp ha
        simp only [buildPlayoutItem_start, buildPlayoutItem_finish] at hlo hhi
        have hmem := (mem_itemsCovering hlt hitem).mpr ⟨by omega, hhi⟩
        rw [List.isEmpty_eq_false_iff]
        exact List.ne_nil_of_mem (List.mem_append_right _ hmem)
      simp only [hcovered, hfails, if_true] at h
      exact (EStateM.Result.error.inj h).2.symm

/-- Taken up from where the chain stands, the generations of a tick in which nothing fails are
those that were left. -/
theorem Completed.generations_calm {n k : ℕ} (h : Completed env n k p q) (fuel : ℕ) :
    (env.calm.generations (fuel + k) n p.from_ p.first p.resume).run p.disk =
      (env.calm.generations fuel (n + k) q.from_ q.first q.resume).run q.disk := by
  induction h with
  | nil => rfl
  | @cons n k p q next span disk more run rest ih =>
    rw [← Nat.add_assoc, TickEnv.generations, if_pos (show p.from_ < env.calm.target from more),
      EStateM.run_bind, TickEnv.generation_calm run]
    refine ih.trans ?_
    rw [Nat.add_right_comm, Nat.add_assoc n k 1]

theorem calm_generations (hsteady : env.Steady) (fuel m : ℕ) (from_ : ℤ) (first : Bool)
    (resume : ResumeMap) (s : Store β) :
    (env.calm.generations fuel m from_ first resume).run s =
      (env.calm.generations fuel 0 from_ first resume).run s := by
  induction fuel generalizing m from_ first resume s with
  | zero => rfl
  | succ fuel ih =>
    rw [TickEnv.generations, TickEnv.generations]
    by_cases hmore : from_ < env.calm.target
    · rw [if_pos hmore, if_pos hmore, EStateM.run_bind, EStateM.run_bind,
        TickEnv.calm_generation hsteady m]
      cases (env.calm.generation 0 from_ first resume).run s with
      | error e s₁ => rfl
      | ok out s₁ =>
        cases out with
        | none => rfl
        | some out => exact (ih (m + 1) _ _ _ _).trans (ih (0 + 1) _ _ _ _).symm
    · rw [if_neg hmore, if_neg hmore]

/-- A chain that stops, stops in the generation after those completed. -/
theorem generations_error {fuel n : ℕ} {e : Fault} {disk : Store β}
    (h : (env.generations fuel n p.from_ p.first p.resume).run p.disk = .error e disk) :
    ∃ k q, Completed env n k p q ∧ q.from_ < env.target ∧
      (env.generation (n + k) q.from_ q.first q.resume).run q.disk = .error e disk := by
  induction fuel generalizing n p with
  | zero => cases h
  | succ fuel ih =>
    rw [TickEnv.generations] at h
    by_cases hmore : p.from_ < env.target
    · rw [if_pos hmore, EStateM.run_bind] at h
      cases hrun : (env.generation n p.from_ p.first p.resume).run p.disk with
      | error e' s₁ =>
        rw [hrun] at h
        obtain ⟨rfl, rfl⟩ := EStateM.Result.error.inj h
        exact ⟨0, p, .nil n p, hmore, hrun⟩
      | ok out s₁ =>
        rw [hrun] at h
        cases out with
        | none => cases h
        | some out =>
          obtain ⟨next, span⟩ := out
          obtain ⟨k, q, hrest, hleft, herror⟩ :=
            ih (p := ⟨p.from_ + span, false, next, s₁⟩) h
          refine ⟨k + 1, q, .cons hmore hrun hrest, hleft, ?_⟩
          rwa [← Nat.add_assoc, Nat.add_right_comm]
    · rw [if_neg hmore] at h
      cases h

theorem generations_ok {fuel n : ℕ} {r : ResumeMap} {disk : Store β}
    (h : (env.generations fuel n p.from_ p.first p.resume).run p.disk = .ok r disk) :
    ∃ k q, k ≤ fuel ∧ Completed env n k p q ∧ q.disk = disk ∧ q.resume = r := by
  induction fuel generalizing n p with
  | zero =>
    obtain ⟨rfl, rfl⟩ := EStateM.Result.ok.inj h
    exact ⟨0, p, le_rfl, .nil n p, rfl, rfl⟩
  | succ fuel ih =>
    rw [TickEnv.generations] at h
    by_cases hmore : p.from_ < env.target
    · rw [if_pos hmore, EStateM.run_bind] at h
      cases hrun : (env.generation n p.from_ p.first p.resume).run p.disk with
      | error e' s₁ =>
        rw [hrun] at h
        cases h
      | ok out s₁ =>
        rw [hrun] at h
        cases out with
        | none =>
          obtain ⟨rfl, rfl⟩ := EStateM.Result.ok.inj h
          have hsame := TickEnv.generation_none hrun
          exact ⟨0, p, Nat.zero_le _, .nil n p, hsame.symm, rfl⟩
        | some out =>
          obtain ⟨next, span⟩ := out
          obtain ⟨k, q, hk, hrest, hq⟩ := ih (p := ⟨p.from_ + span, false, next, s₁⟩) h
          exact ⟨k + 1, q, Nat.succ_le_succ hk, .cons hmore hrun hrest, hq⟩
    · rw [if_neg hmore] at h
      obtain ⟨rfl, rfl⟩ := EStateM.Result.ok.inj h
      exact ⟨0, p, Nat.zero_le _, .nil n p, rfl, rfl⟩

theorem calm_frontier (env : TickEnv β) (s : Store β) :
    (env.calm.frontier).run s = .ok
      (max ((highestFinish (scanOutputFolder env.os s.folder)).getD env.now) env.now,
        (scanOutputFolder env.os s.folder).isEmpty) s := rfl

/-- What is on disk at `q`, `k` generations after `p`, is where the chain goes on from: the
sidecar is the state it enters with, the files end where it begins, and a tick in which nothing
fails lays from there what it would have laid after the `k`. -/
structure Resumes (env : TickEnv β) (k : ℕ) (p q : Point β) : Prop where
  sidecar : q.disk.sidecar = q.resume
  frontier : (env.calm.frontier).run q.disk = .ok (q.from_, q.first) q.disk
  left : ∀ fuel, (env.calm.generations (fuel + k) 0 p.from_ p.first p.resume).run p.disk =
    (env.calm.generations fuel 0 q.from_ q.first q.disk.sidecar).run q.disk

/-- What has been completed is completed where nothing fails. -/
theorem Completed.calm {n k : ℕ} (h : Completed env n k p q) : Completed env.calm n k p q := by
  induction h with
  | nil n p => exact .nil n p
  | cons more run _ ih => exact .cons more (TickEnv.generation_calm run) ih

theorem Completed.resumes {k : ℕ} (h : Completed env 0 k p q) (hremoves : ∀ f, env.os.removes f)
    (hsteady : env.Steady) (hmeasured : env.calm.Measured k 0 p)
    (hstored : Stored env.grid (fun _ => before) p.disk.folder)
    (hbefore : ∀ a ∈ before, a.start < a.finish ∧ a.finish ≤ p.from_)
    (hsync : p.disk.sidecar = p.resume) (hjoin : env.anchor = none ∨ p.first = false)
    (hread : (env.calm.frontier).run p.disk = .ok (p.from_, p.first) p.disk) :
    Resumes env k p q ∧ ∃ rule, Lays env.grid before rule p q := by
  obtain ⟨hsidecar, hfirst, rule, hlays, hsome⟩ :=
    h.calm.lays hremoves hmeasured hstored hsync hjoin
  refine ⟨⟨hsidecar, ?_, fun fuel => ?_⟩, rule, hlays⟩
  · by_cases hk : k = 0
    · subst hk
      cases h
      exact hread
    · have hrule := hsome hk
      have hpos := Sequential.laid_pos hlays.positive p.from_
      have hcovers := rule.laid_covers p.from_
      have hall : ∀ a ∈ before ++ rule.laid p.from_, a.start < a.finish ∧ a.finish ≤ q.from_ := by
        intro a ha
        have hends := hlays.ends
        rcases List.mem_append.mp ha with ha | ha
        · have hle := hcovers.le
          have := hbefore a ha
          omega
        · have := laid_finish ha
          have := hpos a ha
          omega
      have hlaid : rule.laid p.from_ ≠ [] := by
        intro hnil
        have hlen := congrArg List.length (Sequential.map_itemSpans p.from_ rule)
        have hnone : rule.itemSpans p.from_ = [] := List.map_eq_nil_iff.mp hnil
        rw [hnone] at hlen
        exact hrule (List.length_eq_zero_iff.mp (by simpa using hlen.symm))
      have hlast := List.getLast?_eq_some_getLast hlaid
      have hend : ((rule.laid p.from_).getLast hlaid).finish = q.from_ := by
        rw [hcovers.getLast_finish hlast, hlays.ends]
      have hfinish := highestFinish_stored env.os hlays.stored (fun a ha => (hall a ha).1)
        (fun a ha => (hall a ha).2) (List.mem_append_right _ (List.getLast_mem hlaid)) hend
      have hnow : env.now ≤ q.from_ := by
        rw [calm_frontier] at hread
        have hp := congrArg Prod.fst (EStateM.Result.ok.inj hread).1
        have hle := hcovers.le
        have hends := hlays.ends
        dsimp only at hp
        omega
      have hscan : (scanOutputFolder env.os q.disk.folder).isEmpty = false := by
        rw [List.isEmpty_eq_false_iff]
        intro hnil
        rw [hnil] at hfinish
        cases hfinish
      rw [calm_frontier, hfinish, hscan, hfirst hk, Option.getD_some, max_eq_left hnow]
  · rw [h.generations_calm fuel, calm_generations hsteady, hsidecar]

/-- A chain of generations that is stopped before the first chunk file of one is renamed into
place, or between two of them, is taken up again from what is on disk where it stopped, and comes
to what it would have come to: every item of it laid once, in order, with one row for each
programme. -/
theorem restart_continues (hremoves : ∀ f, env.os.removes f) (hsteady : env.Steady)
    (hmeasured : ∀ fuel, env.calm.Measured fuel 0 p)
    (hstored : Stored env.grid (fun _ => before) p.disk.folder)
    (hbefore : ∀ a ∈ before, a.start < a.finish ∧ a.finish ≤ p.from_)
    (hsync : p.disk.sidecar = p.resume) (hjoin : env.anchor = none ∨ p.first = false)
    (hread : (env.calm.frontier).run p.disk = .ok (p.from_, p.first) p.disk) :
    (∀ fuel e disk,
      (env.generations fuel 0 p.from_ p.first p.resume).run p.disk = .error e disk →
      ∃ k q, Completed env 0 k p q ∧
        (env.generation k q.from_ q.first q.resume).run q.disk = .error e disk ∧
        (env.StopsEarly k q.from_ q.resume q.disk → disk = q.disk)) ∧
    (∀ k q, Completed env 0 k p q →
      Resumes env k p q ∧ ∃ rule, Lays env.grid before rule p q) ∧
    ∀ fuel r disk,
      (env.calm.generations fuel 0 p.from_ p.first p.resume).run p.disk = .ok r disk →
      disk.sidecar = r ∧ ∃ q rule, q.disk = disk ∧ Lays env.grid before rule p q := by
  refine ⟨fun fuel e disk hrun => ?_, fun k q hq => ?_, fun fuel r disk hrun => ?_⟩
  · obtain ⟨k, q, hq, hmore, herror⟩ := generations_error hrun
    rw [Nat.zero_add] at herror
    obtain ⟨-, hfirst, -⟩ := hq.calm.lays hremoves (hmeasured k) hstored hsync hjoin
    have hjoin' : env.anchor = none ∨ q.first = false := by
      by_cases hk : k = 0
      · subst hk
        cases hq
        exact hjoin
      · exact Or.inr (hfirst hk)
    have hnext : env.calm.Measured 1 k q := by
      have hrest := hq.calm.measured (hmeasured (1 + k))
      rwa [Nat.zero_add] at hrest
    exact ⟨k, q, hq, herror, fun hearly =>
      stopsEarly_error hjoin' hmore hnext hearly herror⟩
  · exact hq.resumes hremoves hsteady (hmeasured k) hstored hbefore hsync hjoin hread
  · obtain ⟨k, q, -, hq, rfl, rfl⟩ := generations_ok hrun
    obtain ⟨hsidecar, -, rule, hlays, -⟩ := hq.lays hremoves (hmeasured k) hstored hsync hjoin
    exact ⟨hsidecar, q, rule, rfl, hlays⟩

end Chain

theorem hourly_rule {n : ℕ} {ledger : List PlayRecord} {resume : ResumeMap} {from_ target : ℤ}
    {laid : Laid Unit} {showIds : String → Option String} {next : ResumeMap} {fails : Step → Bool}
    (hgen : (hourly fails).generate n ledger resume from_ target = .ok (laid, showIds, next))
    (first : Bool) :
    ((⟨laid, next.toProgress, showIds⟩ : Generation Unit).hand plainEnv none first from_).rule =
      [clip (if resume.position % 2 = 0 then "a" else "b") 1] := by
  have hlaid := congrArg Prod.fst (Except.ok.inj hgen)
  subst hlaid
  cases first <;> rfl

/-- At any instant the hourly channel hands on a clip of whole seconds. -/
theorem hourly_measured (now : ℤ) (fails : Step → Bool) (fuel n : ℕ) (p : Point Unit) :
    ({ hourly fails with now } : TickEnv Unit).Measured fuel n p := by
  refine measured_of_lists (fun n ledger resume from_ target laid showIds next hgen first => ?_)
    fuel n p
  have hclip : ∀ id, Sequential.Measured [clip id 1] := by
    refine fun id => ⟨fun e he => ?_, Sequential.totalDuration_whole (fun e he => ?_)
      (show 3600000000000 + 0 < 2 ^ 53 * Lib.F64.NANOS by decide)⟩
    · rw [List.mem_singleton.mp he]
      exact Nat.zero_lt_succ _
    · rw [List.mem_singleton.mp he]
      exact Dvd.intro_left 3600 rfl
  have hrule := @hourly_rule n ledger resume from_ target laid showIds next fails hgen first
  exact hrule ▸ hclip _

theorem hourly_steady (fails : Step → Bool) : (hourly fails).Steady where
  generate_eq _ := rfl

/-- A channel's first tick, which stops as its second generation writes a chunk. -/
theorem restart_continues_hourly :
    let env := hourly fun step => step = .writeChunk 1 0
    let p : Point Unit := ⟨0, true, {}, {}⟩
    (∀ fuel e disk,
      (env.generations fuel 0 p.from_ p.first p.resume).run p.disk = .error e disk →
      ∃ k q, Completed env 0 k p q ∧
        (env.generation k q.from_ q.first q.resume).run q.disk = .error e disk ∧
        (env.StopsEarly k q.from_ q.resume q.disk → disk = q.disk)) ∧
    (∀ k q, Completed env 0 k p q →
      Resumes env k p q ∧ ∃ rule, Lays env.grid [] rule p q) ∧
    ∀ fuel r disk,
      (env.calm.generations fuel 0 p.from_ p.first p.resume).run p.disk = .ok r disk →
      disk.sidecar = r ∧ ∃ q rule, q.disk = disk ∧ Lays env.grid [] rule p q := by
  intro env p
  have hempty : Stored env.grid (fun _ => ([] : List (PlayoutItem Unit))) p.disk.folder := stored_nil
  exact restart_continues (fun _ => rfl) (hourly_steady _)
    (fun fuel => hourly_measured 0 (fun _ => false) fuel 0 p) hempty
    (fun a ha => absurd ha List.not_mem_nil) rfl (Or.inl rfl) rfl

/-- A tick writes the chunk of `a` and stops before its ledger row: the next tick, which starts
from the sidecar, airs `a` again behind it, and the first airing never gets a row. -/
theorem stopped_tick_redraws :
    let stopped := (hourly fun step => step = .record 0).rollTick {} {}
    let next := (hourly fun _ => false).rollTick stopped.1 stopped.1.sidecar
    stopped.1.folder.map (fun f => (f.items.getD []).map fun a => (a.id, a.start)) =
        [[("a", 0)]] ∧ stopped.1.ledger = [] ∧
      next.1.folder.map (fun f => (f.items.getD []).map fun a => (a.id, a.start)) =
        [[("a", 0), ("a", 1 * HOUR)]] ∧
      next.1.ledger.map (fun r => (r.entryId, r.start)) = [("a", 1 * HOUR)] := by
  decide +kernel

end EtvStation
