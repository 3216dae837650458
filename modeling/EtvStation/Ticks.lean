import EtvStation.Coverage
import EtvStation.Restart

/-! A channel's run of ticks that come to an end without an error: what they lay is one schedule
without a hole, of which the sweep drops the chunks that are over, and nothing is ever repaired. -/
namespace EtvStation

open Bumper

variable {β : Type}

/-- The folder holds the files of a schedule laid end to end up to `end_`, but for some of the
chunks that were over at `now`. -/
structure Standing (grid : ChunkGrid) (now end_ : ℤ) (all : List (PlayoutItem β))
    (folder : Folder β) : Prop where
  covers : ∃ start ≤ now, Covers start end_ all
  positive : ∀ a ∈ all, a.start < a.finish
  stored : ∃ laid, Stored grid laid folder ∧
    ∀ c, grid.boundary c = c → laid c = all ∨ laid c = [] ∧ grid.next c < now

namespace Standing

variable {grid : ChunkGrid} {now now' end_ : ℤ} {all : List (PlayoutItem β)} {folder : Folder β}

theorem later (h : Standing grid now end_ all folder) (hle : now ≤ now') :
    Standing grid now' end_ all folder where
  covers := by
    obtain ⟨start, hstart, hcovers⟩ := h.covers
    exact ⟨start, hstart.trans hle, hcovers⟩
  positive := h.positive
  stored := by
    obtain ⟨laid, hstored, hall⟩ := h.stored
    exact ⟨laid, hstored, fun c hc => (hall c hc).imp_right fun hover =>
      ⟨hover.1, hover.2.trans_le hle⟩⟩

theorem file (h : Standing grid now end_ all folder) {f : ChunkFile β} (hf : f ∈ folder) :
    grid.boundary f.start = f.start ∧ chunkItems grid all f.start ≠ [] ∧
      f = chunkFile f.start (grid.next f.start) (chunkItems grid all f.start) := by
  obtain ⟨laid, hstored, hall⟩ := h.stored
  obtain ⟨c, hc, hof⟩ := (hstored.file f).mp hf
  obtain ⟨rfl, -, hne⟩ := fileOf_start hof
  rcases hall _ hc with hsame | ⟨hnone, -⟩
  · rw [hsame] at hof hne
    rw [fileOf, if_neg hne] at hof
    exact ⟨hc, hne, (Option.some.inj hof).symm⟩
  · rw [hnone] at hne
    exact absurd rfl hne

theorem items (h : Standing grid now end_ all folder) {f : ChunkFile β} (hf : f ∈ folder) :
    f.items = some (chunkItems grid all f.start) := by
  rw [(h.file hf).2.2]
  rfl

/-- A chunk that is not over has its file. -/
theorem held (h : Standing grid now end_ all folder) {c : ℤ} (hc : grid.boundary c = c)
    (hnow : now ≤ grid.next c) (hne : chunkItems grid all c ≠ []) :
    chunkFile c (grid.next c) (chunkItems grid all c) ∈ folder := by
  obtain ⟨laid, hstored, hall⟩ := h.stored
  refine (hstored.file _).mpr ⟨c, hc, ?_⟩
  rcases hall c hc with hsame | ⟨-, hover⟩
  · rw [hsame, fileOf, if_neg hne]
  · exact absurd hover (not_lt.mpr hnow)

theorem unique (h : Standing grid now end_ all folder) {f g : ChunkFile β} (hf : f ∈ folder)
    (hg : g ∈ folder) (hstart : f.start = g.start) : f = g := by
  obtain ⟨laid, hstored, -⟩ := h.stored
  exact hstored.unique hf hg hstart

/-- What airs at an instant that is not over is in the file of the instant's chunk. -/
theorem on_air (h : Standing grid now end_ all folder) {t : ℤ} (hnow : now ≤ t) (hend : t < end_) :
    ∃ a ∈ chunkItems grid all (grid.boundary t), (a.start ≤ t ∧ t < a.finish) ∧
      chunkFile (grid.boundary t) (grid.next (grid.boundary t))
        (chunkItems grid all (grid.boundary t)) ∈ folder := by
  obtain ⟨start, hstart, hcovers⟩ := h.covers
  obtain ⟨a, ha, hat⟩ := hcovers.exists_at (hstart.trans hnow) hend
  have hle := grid.boundary_le t
  have hlt := grid.lt_next t
  have hin : a ∈ chunkItems grid all (grid.boundary t) :=
    mem_chunkItems.mpr ⟨ha, by omega, by omega⟩
  exact ⟨a, hin, hat, h.held (grid.boundary_boundary t) (by omega) (List.ne_nil_of_mem hin)⟩

/-- A file's name ends where its chunk does, or else where the schedule does. -/
theorem finish_cases (h : Standing grid now end_ all folder) {f : ChunkFile β} (hf : f ∈ folder) :
    f.finish = grid.next f.start ∨ f.finish = end_ := by
  obtain ⟨start, hstart, hcovers⟩ := h.covers
  obtain ⟨hc, hne, hfile⟩ := h.file hf
  obtain ⟨lo, hi, hcov⟩ := chunkItems_covers grid hcovers h.positive f.start
  have hlast := List.getLast?_eq_some_getLast hne
  have hzmem := List.getLast_mem hne
  generalize (chunkItems grid all f.start).getLast hne = z at hlast hzmem
  obtain ⟨hzall, hzstart, hzfinish⟩ := mem_chunkItems.mp hzmem
  have hname : f.finish = min z.finish (grid.next f.start) := by
    conv_lhs => rw [hfile]
    exact chunkFile_finish hlast
  rcases le_or_gt (grid.next f.start) z.finish with hfull | hfilling
  · exact Or.inl (hname.trans (min_eq_right hfull))
  · right
    rw [hname, min_eq_left hfilling.le]
    -- An item after the last would open inside the chunk.
    refine le_antisymm (hcovers.mem hzall).2.2 (not_lt.mp fun hmore => ?_)
    have hpos := h.positive z hzall
    have hfrom := (hcovers.mem hzall).1
    obtain ⟨b, hb, hbs, hbf⟩ := hcovers.exists_at (t := z.finish) (by omega) hmore
    have hbin := mem_chunkItems.mpr ⟨hb, show b.start < grid.next f.start by omega,
      show f.start < b.finish by omega⟩
    have hhi := hcov.getLast_finish hlast
    have := (hcov.mem hbin).2.2
    omega

end Standing

section Files

/-- A folder whose latest chunk reaches `end_`, and nothing of which runs past it, ends there. -/
theorem highestFinish_eq (os : Os β) {folder : Folder β} {end_ : ℤ}
    (hends : ∀ f ∈ folder, f.finish ≤ end_ ∧ ∀ a ∈ f.items.getD [], a.finish ≤ end_)
    {f : ChunkFile β} (hf : f ∈ folder) (hlatest : ∀ g ∈ folder, f.start ≤ g.start → g = f)
    (hreaches : ∃ a ∈ f.items.getD [], a.finish = end_) :
    highestFinish (scanOutputFolder os folder) = some end_ := by
  have hf' := (mem_scanOutputFolder os).mpr hf
  have hscan : scanOutputFolder os folder ≠ [] := List.ne_nil_of_mem hf'
  have hsorted : (scanOutputFolder os folder).Pairwise fun a b => a.start ≤ b.start :=
    List.pairwise_insertionSort _ _
  have hsplit := List.dropLast_append_getLast hscan
  have hlast : (scanOutputFolder os folder).getLast hscan = f := by
    refine hlatest _ ((mem_scanOutputFolder os).mp (List.getLast_mem hscan)) ?_
    rw [← hsplit] at hf' hsorted
    rcases List.mem_append.mp hf' with hin | hin
    · exact (List.pairwise_append.mp hsorted).2.2 _ hin _ (List.mem_singleton_self _)
    · rw [List.mem_singleton.mp hin]
  obtain ⟨a, ha, hend⟩ := hreaches
  have hitems : ((f.items.getD []).map (·.finish)).max? = some end_ := by
    refine List.max?_eq_some_iff.mpr ⟨List.mem_map.mpr ⟨a, ha, hend⟩, fun b hb => ?_⟩
    obtain ⟨z, hz, rfl⟩ := List.mem_map.mp hb
    exact (hends f hf).2 z hz
  have hreaches : highestFinish (scanOutputFolder os folder) =
      some (max (((scanOutputFolder os folder).dropLast.map (·.finish)).max?.getD f.finish)
        (max f.finish end_)) := by
    unfold highestFinish
    rw [List.getLast?_eq_some_getLast hscan, Option.map_some, hlast]
    dsimp only
    rw [hitems, Option.getD_some]
  rw [hreaches]
  exact congrArg some (le_antisymm (highestFinish_le os hends _ hreaches)
    ((le_max_right _ _).trans (le_max_right _ _)))

end Files

namespace Standing

variable {grid : ChunkGrid} {now end_ : ℤ} {all : List (PlayoutItem β)} {folder : Folder β}

theorem finish_le (h : Standing grid now end_ all folder) :
    ∀ f ∈ folder, f.finish ≤ end_ ∧ ∀ a ∈ f.items.getD [], a.finish ≤ end_ := by
  obtain ⟨start, hstart, hcovers⟩ := h.covers
  intro f hf
  have hitems : ∀ a ∈ f.items.getD [], a.finish ≤ end_ := by
    intro a ha
    rw [h.items hf, Option.getD_some] at ha
    exact (hcovers.mem (mem_chunkItems.mp ha).1).2.2
  refine ⟨?_, hitems⟩
  obtain ⟨hc, hne, hfile⟩ := h.file hf
  have hlast := List.getLast?_eq_some_getLast hne
  have hname : f.finish = min ((chunkItems grid all f.start).getLast hne).finish
      (grid.next f.start) := by
    conv_lhs => rw [hfile]
    exact chunkFile_finish hlast
  rw [hname]
  refine (min_le_left _ _).trans (hitems _ ?_)
  rw [h.items hf, Option.getD_some]
  exact List.getLast_mem hne

/-- The files of a schedule that is not over end where it does. -/
theorem highestFinish_some (h : Standing grid now end_ all folder) (os : Os β) (hne : all ≠ [])
    (hnow : now ≤ end_) : highestFinish (scanOutputFolder os folder) = some end_ := by
  obtain ⟨start, hstart, hcovers⟩ := h.covers
  have hlast := List.getLast?_eq_some_getLast hne
  set z := all.getLast hne with hz
  have hzmem : z ∈ all := List.getLast_mem hne
  have hzend : z.finish = end_ := hcovers.getLast_finish hlast
  have hzpos := h.positive z hzmem
  have hbehind := grid.boundary_le (end_ - 1)
  have hahead := grid.lt_next (end_ - 1)
  have hboundary := grid.boundary_boundary (end_ - 1)
  set c := grid.boundary (end_ - 1) with hc
  have hzc : z ∈ chunkItems grid all c := mem_chunkItems.mpr ⟨hzmem, by omega, by omega⟩
  have hheld := h.held hboundary (by omega) (List.ne_nil_of_mem hzc)
  refine highestFinish_eq os h.finish_le hheld (fun g hg hle => ?_) ⟨z, hzc, hzend⟩
  refine h.unique hg hheld (le_antisymm (not_lt.mp fun hlater => ?_) hle)
  obtain ⟨hgc, hgne, -⟩ := h.file hg
  have hnext := grid.next_le hboundary hgc hlater
  have hglast := mem_chunkItems.mp (List.getLast_mem hgne)
  have := (hcovers.mem hglast.1).2.2
  omega

/-- A schedule without holes has none to heal. -/
theorem no_gap (h : Standing grid now end_ all folder) (os : Os β) (horizon : ℤ) :
    firstCoverageGap (scanOutputFolder os folder) now horizon = .ok none := by
  rcases le_or_gt horizon now with hbehind | hahead
  · exact firstCoverageGap_behind hbehind
  have hread : ∀ f ∈ Folder.near (scanOutputFolder os folder) now horizon, f.items.isSome := by
    intro f hf
    rw [h.items ((mem_scanOutputFolder os).mp (List.mem_filter.mp hf).1)]
    rfl
  refine (firstCoverageGap_ahead hahead).mpr ⟨hread, Eq.symm ?_⟩
  refine Option.eq_none_iff_forall_ne_some.mpr fun g hg => ?_
  obtain ⟨hfrom, hfree, a, ha, hlater, hnear, -⟩ := (holeIn_nearSpans.mp hg).1
  obtain ⟨start, hstart, hcovers⟩ := h.covers
  obtain ⟨f, hf, haf⟩ := List.mem_flatMap.mp ha
  have hf' := (mem_scanOutputFolder os).mp (List.mem_filter.mp hf).1
  rw [h.items hf', Option.getD_some] at haf
  have haend := (hcovers.mem (mem_chunkItems.mp haf).1)
  obtain ⟨b, hb, hat, hfile⟩ := h.on_air hfrom (show g < end_ by omega)
  obtain ⟨lo, hi, hcov⟩ := chunkItems_covers grid hcovers h.positive (grid.boundary g)
  have hne := List.ne_nil_of_mem hb
  have hlt := grid.lt_next g
  have hle := grid.boundary_le g
  have hon : g < (chunkFile (grid.boundary g) (grid.next (grid.boundary g))
      (chunkItems grid all (grid.boundary g))).finish := by
    rw [lt_chunkFile_finish hcov hne]
    have := (hcov.mem hb).2.2
    omega
  have hopens : (chunkFile (grid.boundary g) (grid.next (grid.boundary g))
      (chunkItems grid all (grid.boundary g))).start = grid.boundary g := rfl
  refine absurd hat (hfree b (List.mem_flatMap.mpr ⟨_, List.mem_filter.mpr
    ⟨(mem_scanOutputFolder os).mpr hfile, decide_eq_true ?_⟩, hb⟩))
  omega

end Standing

namespace Standing

variable {grid : ChunkGrid} {now end_ : ℤ} {all : List (PlayoutItem β)} {folder : Folder β}

/-- The sweep takes chunks that are over, where it counts none beyond the window. -/
theorem swept (h : Standing grid now end_ all folder) (hnow : now ≤ end_) (os : Os β)
    {cutoff unreachable : ℤ} (hcutoff : cutoff ≤ now)
    (hnone : (sweepWindow os folder cutoff unreachable).2.unreachable = 0) :
    Standing grid now end_ all (sweepWindow os folder cutoff unreachable).1 where
  covers := h.covers
  positive := h.positive
  stored := by
    obtain ⟨laid, hstored, hall⟩ := h.stored
    unfold sweepWindow at hnone ⊢
    dsimp only at hnone ⊢
    set gone := (scanOutputFolder os folder).filter fun f =>
      (f.finish < cutoff ∨ f.start ≥ unreachable) ∧ os.removes f with hgone
    have hmem : ∀ f ∈ gone, f ∈ folder := fun f hf =>
      (mem_scanOutputFolder os).mp (List.mem_filter.mp hf).1
    have hover : ∀ f ∈ gone, grid.next f.start < now := by
      intro f hf
      have helapsed : f.finish < cutoff := by simpa using List.countP_eq_zero.mp hnone f hf
      rcases h.finish_cases (hmem f hf) with hfinish | hfinish
      · omega
      · omega
    have hkept : ∀ g, g ∈ folder.filter (fun f => f.name ∉ gone.map (·.name)) ↔
        g ∈ folder ∧ g.start ∉ gone.map (·.start) := by
      intro g
      rw [List.mem_filter, decide_eq_true_iff]
      refine and_congr_right fun hg => not_congr ⟨fun hin => ?_, fun hin => ?_⟩
      · obtain ⟨f, hf, hname⟩ := List.mem_map.mp hin
        exact List.mem_map.mpr ⟨f, hf, congrArg Prod.fst hname⟩
      · obtain ⟨f, hf, hstart⟩ := List.mem_map.mp hin
        rw [h.unique hg (hmem f hf) hstart.symm]
        exact List.mem_map_of_mem hf
    refine ⟨fun c => if c ∈ gone.map (·.start) then [] else laid c,
      ⟨fun g => ?_, hstored.nodup.filter _⟩, fun c hc => ?_⟩
    · rw [hkept, hstored.file]
      constructor
      · rintro ⟨⟨c, hc, hof⟩, hstart⟩
        rw [(fileOf_start hof).1] at hstart
        exact ⟨c, hc, by rw [if_neg hstart, hof]⟩
      · rintro ⟨c, hc, hof⟩
        split_ifs at hof with hin
        · cases hof
        · refine ⟨⟨c, hc, hof⟩, ?_⟩
          rwa [(fileOf_start hof).1]
    · dsimp only
      split_ifs with hin
      · obtain ⟨f, hf, rfl⟩ := List.mem_map.mp hin
        exact Or.inr ⟨rfl, hover f hf⟩
      · exact hall c hc

end Standing

/-- A list laid where the schedule ends goes on with it. -/
theorem Standing.emits {grid : ChunkGrid} {now from_ : ℤ} {before : List (PlayoutItem β)}
    {folder : Folder β} (h : Standing grid now from_ before folder) (hnow : now ≤ from_)
    {os : Os β} (hremoves : ∀ f, os.removes f) {rule : Sequential β} (hpos : ∀ e ∈ rule, 0 < e.2)
    {fuel : ℕ} (hfuel : rule.walked.toNat ≤ fuel) :
    ∃ written folder', emitLoop os grid rule from_ (from_ + rule.walked) fuel from_ folder =
      .ok (written, folder') ∧
      Standing grid now (from_ + rule.walked) (before ++ rule.laid from_) folder' := by
  classical
  obtain ⟨laid, hstored, hall⟩ := h.stored
  set call : EmitCall β := ⟨from_, from_, from_ + rule.walked, rule⟩ with hcall
  have hopens : Stored grid
      (fun c => if grid.next c ≤ from_ then laid c ++ call.reaches grid c else laid c) folder := by
    refine hstored.congr fun c _ => ?_
    split_ifs with hnext
    · rw [EmitCall.reaches, if_pos (Or.inl hnext), List.append_nil]
    · rfl
  have hleft : (call.to_ - from_).toNat ≤ fuel := by simpa [hcall] using hfuel
  obtain ⟨written, folder', hrun, hreached⟩ := EmitCall.emitLoop_reached hremoves
    (show call.anchor ≤ call.from_ from le_rfl) fuel le_rfl (Or.inl rfl) hleft hopens
  refine ⟨written, folder', hrun, ?_, fun a ha => (List.mem_append.mp ha).elim (h.positive a)
    (Sequential.laid_pos hpos from_ a), fun c => if laid c = before then before ++ rule.laid from_
    else [], ?_, fun c hc => ?_⟩
  · obtain ⟨start, hstart, hcovers⟩ := h.covers
    exact ⟨start, hstart, covers_append.mpr ⟨from_, hcovers, rule.laid_covers from_⟩⟩
  · refine hreached.congr fun c hc => ?_
    split_ifs with hsame
    · rw [hsame, fileOf, fileOf, chunkItems_append, chunkItems_append, chunkItems_reaches hpos]
    · obtain ⟨hnil, hover⟩ := (hall c hc).resolve_left hsame
      have hnone : call.reaches grid c = [] := if_pos (Or.inl (hover.le.trans hnow))
      rw [hnil, hnone, List.append_nil]
  · dsimp only
    split_ifs with hsame
    · exact Or.inl rfl
    · exact Or.inr ⟨rfl, ((hall c hc).resolve_left hsame).2⟩

theorem Standing.laid {grid : ChunkGrid} {now from_ : ℤ} {before : List (PlayoutItem β)}
    {folder folder' : Folder β} (h : Standing grid now from_ before folder) (hnow : now ≤ from_)
    {os : Os β} (hremoves : ∀ f, os.removes f) {rule : Sequential β} (hpos : ∀ e ∈ rule, 0 < e.2)
    {fuel : ℕ} (hfuel : rule.walked.toNat ≤ fuel) {written : List (ChunkFile β)}
    (hemit : emitLoop os grid rule from_ (from_ + rule.walked) fuel from_ folder =
      .ok (written, folder')) :
    Standing grid now (from_ + rule.walked) (before ++ rule.laid from_) folder' := by
  obtain ⟨written', folder'', hrun, hstanding⟩ := h.emits hnow hremoves hpos hfuel
  obtain ⟨-, rfl⟩ := Prod.mk.inj (Except.ok.inj (hemit.symm.trans hrun))
  exact hstanding

theorem programmes_starts (rule : Sequential β) (from_ : ℤ) :
    ((programmes rule from_).map Prod.snd).Sublist ((rule.laid from_).map (·.start)) := by
  unfold programmes Sequential.laid
  generalize rule.itemSpans from_ = spans
  induction spans with
  | nil => exact List.Sublist.refl _
  | cons e spans ih =>
    cases hbumper : e.1.bumper with
    | none =>
      rw [List.filterMap_cons_some (by rw [hbumper]; rfl), List.map_cons, List.map_cons,
        List.map_cons, buildPlayoutItem_start]
      exact ih.cons_cons _
    | some _ =>
      rw [List.filterMap_cons_none (by rw [hbumper]; rfl)]
      exact ih.cons _

section Tick

variable {env : TickEnv β} {now : ℤ} {before : List (PlayoutItem β)} {p q : Point β}

/-- From `p` to `q` the items of `rule` have been laid where the schedule ended, each programme
with its one row, and the sidecar has the state the next generation enters with. -/
structure Extends (grid : ChunkGrid) (now : ℤ) (before : List (PlayoutItem β))
    (rule : Sequential β) (p q : Point β) : Prop where
  ends : q.from_ = p.from_ + rule.walked
  standing : Standing grid now q.from_ (before ++ rule.laid p.from_) q.disk.folder
  rows : q.disk.ledger.map (fun r => (r.entryId, r.start)) =
    p.disk.ledger.map (fun r => (r.entryId, r.start)) ++ programmes rule p.from_
  sidecar : q.disk.sidecar = q.resume

/-- A completed generation hands on what it resolved to, and keeps the state after it. -/
theorem generation_adopts {n : ℕ} {first : Bool} {from_ span : ℤ} {resume next : ResumeMap}
    {s s' : Store β}
    (run : (env.generation n from_ first resume).run s = .ok (some (next, span)) s') :
    ∃ laid showIds out, env.generate n s.ledger (resume.checkpoint from_) from_ env.target =
        .ok (laid, showIds, out) ∧ next.toProgress = out.toProgress := by
  rw [TickEnv.generation_run] at run
  cases hgen : env.generate n s.ledger (resume.checkpoint from_) from_ env.target with
  | error message =>
    rw [hgen] at run
    cases run
  | ok result =>
    obtain ⟨laid, showIds, out⟩ := result
    rw [hgen] at run
    dsimp only at run
    refine ⟨laid, showIds, out, rfl, ?_⟩
    generalize (⟨laid, out.toProgress, showIds⟩ : Generation β).hand env.fill env.anchor first
      from_ = hand at run
    by_cases hspan : hand.span from_ ≤ 0
    · rw [if_pos hspan] at run
      cases (EStateM.Result.ok.inj run).1
    rw [if_neg hspan] at run
    cases hemit : (env.emitChunks n hand.rule hand.seqStart (from_ + hand.span from_)
        (hand.span from_).toNat from_).run s with
    | error e s₁ =>
      rw [hemit] at run
      cases run
    | ok u s₁ =>
      rw [hemit] at run
      dsimp only at run
      split_ifs at run
      obtain ⟨hsome, -⟩ := EStateM.Result.ok.inj run
      obtain ⟨rfl, -⟩ := Prod.mk.inj (Option.some.inj hsome)
      rfl

theorem generation_extends (hremoves : ∀ f, env.os.removes f) {fuel n : ℕ}
    (hmeasured : env.Measured (fuel + 1) n p) (hmore : p.from_ < env.target)
    (hanchor : env.anchor = none) (hnow : now ≤ p.from_)
    (hstanding : Standing env.grid now p.from_ before p.disk.folder) {next : ResumeMap}
    {span : ℤ} {disk : Store β}
    (run : (env.generation n p.from_ p.first p.resume).run p.disk = .ok (some (next, span)) disk) :
    0 < span ∧ ∃ laid showIds out, env.generate n p.disk.ledger (p.resume.checkpoint p.from_)
        p.from_ env.target = .ok (laid, showIds, out) ∧ next.toProgress = out.toProgress ∧
      let g : Generation β := ⟨laid, out.toProgress, showIds⟩
      let hand := g.hand env.fill env.anchor p.first p.from_
      disk.ledger = p.disk.ledger ++ g.records hand p.from_ ∧
        Extends env.grid now before hand.rule p ⟨p.from_ + span, false, next, disk⟩ := by
  obtain ⟨laid, showIds, out, hgen, hspan, hpos, ⟨written, hemit⟩, hledger, hsidecar⟩ :=
    TickEnv.generation_ok run
  obtain ⟨laid', showIds', out', hgen', hadopts⟩ := generation_adopts run
  obtain ⟨rfl, rfl, rfl⟩ : laid' = laid ∧ showIds' = showIds ∧ out' = out := by
    simpa using Except.ok.inj (hgen'.symm.trans hgen)
  obtain ⟨hpositive, hwalked⟩ := hmeasured _ (mem_handedFrom hmore hgen)
  obtain ⟨hstart, hall, htotal⟩ :=
    hand_top ⟨laid', out'.toProgress, showIds'⟩ env.fill (Or.inl hanchor) p.from_
  rw [hwalked] at htotal
  refine ⟨hpos, laid', showIds', out', hgen, hadopts, hledger, ?_⟩
  generalize (⟨laid', out'.toProgress, showIds'⟩ : Generation β).hand env.fill env.anchor p.first
    p.from_ = hand at *
  rw [hstart, hspan, htotal] at hemit
  refine ⟨?_, ?_, ?_, hsidecar⟩
  · dsimp only
    omega
  · dsimp only
    rw [hspan, htotal]
    exact hstanding.laid hnow hremoves hpositive le_rfl hemit
  · dsimp only
    rw [hledger, List.map_append, Generation.records, map_playRecords, hall]

/-- Nothing laid. -/
theorem Extends.refl {grid : ChunkGrid}
    (hstanding : Standing grid now p.from_ before p.disk.folder)
    (hsync : p.disk.sidecar = p.resume) : Extends grid now before [] p p where
  ends := by simp [Sequential.walked]
  standing := by simpa [Sequential.laid, Sequential.itemSpans] using hstanding
  rows := by simp [programmes, Sequential.itemSpans]
  sidecar := hsync

theorem Extends.trans {grid : ChunkGrid} {rule rule' : Sequential β} {r : Point β}
    (h : Extends grid now before rule p q)
    (h' : Extends grid now (before ++ rule.laid p.from_) rule' q r) :
    Extends grid now before (rule ++ rule') p r where
  ends := by
    have := h.ends
    have := h'.ends
    rw [Sequential.walked_append]
    omega
  standing := by
    have hstanding := h'.standing
    rwa [h.ends, List.append_assoc, ← laid_append] at hstanding
  rows := by
    rw [h'.rows, h.rows, programmes_append, h.ends, List.append_assoc]
  sidecar := h'.sidecar

/-- A chain of completed generations goes on with the schedule. -/
theorem Completed.extends {n k : ℕ} (h : Completed env n k p q)
    (hremoves : ∀ f, env.os.removes f) (hmeasured : env.Measured k n p)
    (hanchor : env.anchor = none) (hnow : now ≤ p.from_)
    (hstanding : Standing env.grid now p.from_ before p.disk.folder)
    (hsync : p.disk.sidecar = p.resume) : ∃ rule, Extends env.grid now before rule p q := by
  induction h generalizing before with
  | nil n p => exact ⟨[], .refl hstanding hsync⟩
  | cons more run rest ih =>
    obtain ⟨hpos, laid, showIds, out, -, -, -, hone⟩ :=
      generation_extends hremoves hmeasured more hanchor hnow hstanding run
    obtain ⟨rule', hrest⟩ := ih (fun rule hrule => hmeasured rule (handedFrom_subset more run hrule))
      (by dsimp only; omega) hone.standing hone.sidecar
    exact ⟨_, hone.trans hrest⟩

end Tick

namespace TickEnv

variable (env : TickEnv β)

/-- What a tick does before its first generation, and where that one begins. -/
def opening (resume : ResumeMap) : EStateM Fault (Store β) (Point β) := do
  env.attempt .loadDurations
  let resume ← env.sweep resume
  let resume ← env.heal resume
  let (from_, first) ← env.frontier
  return ⟨from_, first, resume, ← get⟩

def LaysMeasured (resume : ResumeMap) (disk : Store β) : Prop :=
  Lib.Ensures (env.opening resume) disk
    (fun p _ => env.Measured MAX_GENERATIONS_PER_TICK 0 p) fun _ => True

instance (resume : ResumeMap) (disk : Store β) : Decidable (env.LaysMeasured resume disk) :=
  inferInstanceAs (Decidable (Lib.Ensures _ _ _ _))

end TickEnv

section Run

variable {env : TickEnv β} {resume next : ResumeMap} {s s' : Store β}

theorem laysMeasured_of (h : ∀ p, env.Measured MAX_GENERATIONS_PER_TICK 0 p) :
    env.LaysMeasured resume s := by
  unfold TickEnv.LaysMeasured Lib.Ensures
  split
  · exact h _
  · trivial

theorem run_bind_ok {σ ε α γ : Type} {x : EStateM ε σ α} {f : α → EStateM ε σ γ} {s s' : σ} {b : γ}
    (h : (x >>= f).run s = .ok b s') : ∃ a s₁, x.run s = .ok a s₁ ∧ (f a).run s₁ = .ok b s' := by
  rw [EStateM.run_bind] at h
  cases hx : x.run s with
  | error e s₁ =>
    rw [hx] at h
    cases h
  | ok a s₁ =>
    rw [hx] at h
    exact ⟨a, s₁, rfl, h⟩

theorem laysMeasured_opening (h : env.LaysMeasured resume s) {p : Point β}
    (hopening : (env.opening resume).run s = .ok p s') :
    env.Measured MAX_GENERATIONS_PER_TICK 0 p := by
  unfold TickEnv.LaysMeasured Lib.Ensures at h
  rw [hopening] at h
  exact h

theorem attempt_ok {step : Step} {u : Unit} (h : (env.attempt step).run s = .ok u s') :
    s' = s := by
  unfold TickEnv.attempt at h
  split_ifs at h
  · cases h
  · exact (EStateM.Result.ok.inj h).2.symm

theorem scan_ok {part : Part} {files : Folder β} (h : (env.scan part).run s = .ok files s') :
    s' = s ∧ files = scanOutputFolder env.os s.folder := by
  obtain ⟨u, s₁, hattempt, hread⟩ := run_bind_ok h
  obtain rfl := attempt_ok hattempt
  obtain ⟨rfl, rfl⟩ := EStateM.Result.ok.inj hread
  exact ⟨rfl, rfl⟩

/-- A sweep that finds nothing beyond the window rewinds nothing. -/
theorem sweep_ok (hstranded : ¬ env.Stranded s.folder)
    (h : (env.sweep resume).run s = .ok next s') :
    next = resume ∧ (s' = s ∨ s' = { s with folder := (sweepWindow env.os s.folder
      (env.now - env.retention) (unreachableAfter env.grid env.target)).1 }) := by
  unfold TickEnv.sweep at h
  split_ifs at h
  · obtain ⟨rfl, rfl⟩ := EStateM.Result.ok.inj h
    exact ⟨rfl, Or.inl rfl⟩
  · obtain ⟨disk, s₁, hget, hrest⟩ := run_bind_ok h
    obtain ⟨rfl, rfl⟩ := EStateM.Result.ok.inj hget
    obtain ⟨u, s₂, hset, hrewound⟩ := run_bind_ok hrest
    obtain ⟨-, rfl⟩ := EStateM.Result.ok.inj hset
    rw [if_neg hstranded] at hrewound
    obtain ⟨rfl, rfl⟩ := EStateM.Result.ok.inj hrewound
    exact ⟨rfl, Or.inr rfl⟩

/-- Where no hole is found, nothing is healed. -/
theorem heal_ok (hgap : firstCoverageGap (scanOutputFolder env.os s.folder) env.now
      env.healHorizon = .ok none) (h : (env.heal resume).run s = .ok next s') :
    next = resume ∧ s' = s := by
  obtain ⟨gap, s₁, hfound, hhealed⟩ := run_bind_ok h
  have hnone : gap = none ∧ s₁ = s := by
    unfold TickEnv.coverageGap at hfound
    split_ifs at hfound
    · obtain ⟨rfl, rfl⟩ := EStateM.Result.ok.inj hfound
      exact ⟨rfl, rfl⟩
    · obtain ⟨files, s₂, hscan, hlift⟩ := run_bind_ok hfound
      obtain ⟨rfl, rfl⟩ := scan_ok hscan
      rw [hgap] at hlift
      obtain ⟨rfl, rfl⟩ := EStateM.Result.ok.inj hlift
      exact ⟨rfl, rfl⟩
  obtain ⟨rfl, rfl⟩ := hnone
  obtain ⟨rfl, rfl⟩ := EStateM.Result.ok.inj hhealed
  exact ⟨rfl, rfl⟩

theorem frontier_ok {at_ : ℤ × Bool} (h : env.frontier.run s = .ok at_ s') :
    s' = s ∧ at_.1 = max ((highestFinish (scanOutputFolder env.os s.folder)).getD env.now)
      env.now := by
  obtain ⟨files, s₁, hscan, hrest⟩ := run_bind_ok h
  obtain ⟨rfl, rfl⟩ := scan_ok hscan
  obtain ⟨u, s₂, hattempt, hreturn⟩ := run_bind_ok hrest
  obtain rfl := attempt_ok hattempt
  obtain ⟨rfl, rfl⟩ := EStateM.Result.ok.inj hreturn
  exact ⟨rfl, rfl⟩

theorem Standing.folder_nil {grid : ChunkGrid} {now end_ : ℤ} {folder : Folder β}
    (h : Standing grid now end_ [] folder) : folder = [] := by
  refine List.eq_nil_iff_forall_not_mem.mpr fun f hf => (h.file hf).2.1 rfl

/-- A tick on a standing schedule, made before it runs out, repairs nothing: it sweeps what is
over, and chains generations from where the schedule ends. -/
theorem patternCatchUp_ok {end_ : ℤ} {all : List (PlayoutItem β)}
    (hstanding : Standing env.grid env.now end_ all s.folder) (hnow : env.now ≤ end_)
    (hfresh : all = [] → end_ = env.now) (hretention : 0 ≤ env.retention)
    (hstranded : ¬ env.Stranded s.folder)
    (h : (env.patternCatchUp resume).run s = .ok next s') :
    ∃ folder first, Standing env.grid env.now end_ all folder ∧
      (env.opening resume).run s =
        .ok ⟨end_, first, resume, { s with folder }⟩ { s with folder } ∧
      (env.generations MAX_GENERATIONS_PER_TICK 0 end_ first resume).run { s with folder } =
        .ok next s' := by
  obtain ⟨u, s₁, hload, hrest⟩ := run_bind_ok h
  obtain rfl := attempt_ok hload
  obtain ⟨swept, s₂, hsweep, hrest⟩ := run_bind_ok hrest
  obtain ⟨rfl, hs₂⟩ := sweep_ok hstranded hsweep
  obtain ⟨folder, rfl, hfolder⟩ : ∃ folder, s₂ = { s₁ with folder } ∧
      Standing env.grid env.now end_ all folder := by
    rcases hs₂ with rfl | rfl
    · exact ⟨s₂.folder, rfl, hstanding⟩
    · have hnone := Nat.eq_zero_of_not_pos hstranded
      exact ⟨_, rfl, hstanding.swept hnow env.os (by omega) hnone⟩
  obtain ⟨healed, s₃, hheal, hrest⟩ := run_bind_ok hrest
  have hgap := hfolder.no_gap env.os env.healHorizon
  obtain ⟨rfl, rfl⟩ := heal_ok hgap hheal
  obtain ⟨⟨from_, first⟩, s₄, hfrontier, hrest⟩ := run_bind_ok hrest
  obtain ⟨rfl, hfrom⟩ := frontier_ok hfrontier
  have hend : from_ = end_ := by
    dsimp only at hfrom
    rw [hfrom]
    by_cases hall : all = []
    · subst hall
      rw [hfolder.folder_nil, hfresh rfl]
      have hscan : scanOutputFolder env.os ([] : Folder β) = [] :=
        List.eq_nil_iff_forall_not_mem.mpr fun f hf =>
          absurd ((mem_scanOutputFolder env.os).mp hf) List.not_mem_nil
      rw [hscan]
      exact max_self _
    · rw [hfolder.highestFinish_some env.os hall hnow, Option.getD_some, max_eq_left hnow]
  subst hend
  have hopening : (env.opening healed).run s₁ =
      .ok ⟨from_, first, healed, { s₁ with folder }⟩ { s₁ with folder } := by
    rw [TickEnv.opening, EStateM.run_bind, hload]
    dsimp only
    rw [EStateM.run_bind, hsweep]
    dsimp only
    rw [EStateM.run_bind, hheal]
    dsimp only
    rw [EStateM.run_bind, hfrontier]
    rfl
  obtain ⟨r, s₅, hgenerations, hrest⟩ := run_bind_ok hrest
  obtain ⟨v, s₆, hsave, hreturn⟩ := run_bind_ok hrest
  obtain rfl := attempt_ok hsave
  obtain ⟨rfl, rfl⟩ := EStateM.Result.ok.inj hreturn
  exact ⟨folder, first, hfolder, hopening, hgenerations⟩

end Run

/-- A channel's ticks from `p` on that come to an end without an error: the clock never goes back,
each is made before what is laid runs out, and none finds a file beyond its window. -/
inductive Rolled (os : Os β) (grid : ChunkGrid) (p : Point β) (lo : ℤ) :
    ℤ → Store β × ResumeMap → Prop
  | start : Rolled os grid p lo lo (p.disk, p.resume)
  | tick {last : ℤ} {disk disk' : Store β} {resume next : ResumeMap} {env : TickEnv β}
      (h : Rolled os grid p lo last (disk, resume)) (hos : env.os = os) (hgrid : env.grid = grid)
      (hanchor : env.anchor = none) (hmeasured : env.LaysMeasured resume disk)
      (hretention : 0 ≤ env.retention)
      (hclock : last ≤ env.now)
      (hahead : env.now ≤ (highestFinish (scanOutputFolder os disk.folder)).getD last)
      (hstranded : ¬ env.Stranded disk.folder)
      (hrun : (env.patternCatchUp resume).run disk = .ok next disk') :
      Rolled os grid p lo env.now (disk', next)

theorem Extends.later {grid : ChunkGrid} {now now' : ℤ} {before : List (PlayoutItem β)}
    {rule : Sequential β} {p q : Point β} (h : Extends grid now before rule p q)
    (hle : now ≤ now') : Extends grid now' before rule p q where
  ends := h.ends
  standing := h.standing.later hle
  rows := h.rows
  sidecar := h.sidecar

/-- A tick before the schedule runs out is made at its end at the latest. -/
theorem Standing.ahead {grid : ChunkGrid} {last now end_ : ℤ} {all : List (PlayoutItem β)}
    {folder : Folder β} (h : Standing grid last end_ all folder) (os : Os β) (hlast : last ≤ end_)
    (hfresh : all = [] → end_ = last) (hclock : last ≤ now)
    (hahead : now ≤ (highestFinish (scanOutputFolder os folder)).getD last) :
    now ≤ end_ ∧ (all = [] → end_ = now) := by
  by_cases hall : all = []
  · subst hall
    have hscan : scanOutputFolder os folder = [] :=
      List.eq_nil_iff_forall_not_mem.mpr fun f hf => by
        have := (mem_scanOutputFolder os).mp hf
        rw [h.folder_nil] at this
        exact List.not_mem_nil this
    have hend := hfresh rfl
    rw [hscan] at hahead
    have hnow : now ≤ last := hahead
    exact ⟨by omega, fun _ => by omega⟩
  · rw [h.highestFinish_some os hall hlast, Option.getD_some] at hahead
    exact ⟨hahead, fun hnil => absurd hnil hall⟩

/-- A run of ticks goes on with one schedule, and what it has laid reaches its last clock. -/
theorem Rolled.extends {os : Os β} {grid : ChunkGrid} {p : Point β} {lo last : ℤ}
    {at_ : Store β × ResumeMap} {before : List (PlayoutItem β)} (h : Rolled os grid p lo last at_)
    (hremoves : ∀ f, os.removes f) (hstanding : Standing grid lo p.from_ before p.disk.folder)
    (hlo : lo ≤ p.from_) (hfresh : before = [] → p.from_ = lo)
    (hsync : p.disk.sidecar = p.resume) :
    ∃ rule q, q.disk = at_.1 ∧ q.resume = at_.2 ∧ last ≤ q.from_ ∧
      (before ++ rule.laid p.from_ = [] → q.from_ = last) ∧ Extends grid last before rule p q := by
  induction h with
  | start =>
    exact ⟨[], p, rfl, rfl, hlo, fun hnil => hfresh (List.append_eq_nil_iff.mp hnil).1,
      .refl hstanding hsync⟩
  | @tick last disk disk' resume next env _ hos hgrid hanchor hmeasured hretention hclock hahead
      hstranded hrun ih =>
    subst hos hgrid
    obtain ⟨rule, q, rfl, rfl, hlast, hempty, hext⟩ := ih
    obtain ⟨hnow, hempty'⟩ := hext.standing.ahead env.os hlast hempty hclock hahead
    have hlater := hext.later hclock
    obtain ⟨folder, first, hfolder, hopening, hgenerations⟩ :=
      patternCatchUp_ok hlater.standing hnow hempty' hretention hstranded hrun
    obtain ⟨k, r, hk, hdone, rfl, rfl⟩ :=
      @generations_ok _ env ⟨q.from_, first, q.resume, { q.disk with folder }⟩ _ _ _ _ hgenerations
    have hsame : Extends env.grid env.now before rule p
        ⟨q.from_, first, q.resume, { q.disk with folder }⟩ :=
      ⟨hlater.ends, hfolder, hlater.rows, hlater.sidecar⟩
    have hlists := laysMeasured_opening hmeasured hopening
    obtain ⟨rule', hmore⟩ := hdone.extends hremoves
      (fun rule hrule => hlists rule (handedFrom_mono hk hrule)) hanchor hnow hfolder hlater.sidecar
    have hboth := hsame.trans hmore
    have hends := hmore.ends
    dsimp only at hends
    have hle : 0 ≤ rule'.walked := by
      have := (rule'.laid_covers 0).le
      omega
    refine ⟨rule ++ rule', r, rfl, rfl, by omega, fun hnil => ?_, hboth⟩
    rw [laid_append, ← List.append_assoc, ← hext.ends] at hnil
    obtain ⟨hbefore, hlaid⟩ := List.append_eq_nil_iff.mp hnil
    have hcovers := rule'.laid_covers q.from_
    rw [hlaid] at hcovers
    rw [hends, ← hempty' hbefore]
    exact hcovers.symm

def hourlyAt (now : ℤ) (fails : Step → Bool) : TickEnv Unit := { hourly fails with now }

theorem hourlyAt_lays (now : ℤ) (fails : Step → Bool) (resume : ResumeMap) (disk : Store Unit) :
    (hourlyAt now fails).LaysMeasured resume disk :=
  laysMeasured_of (hourly_measured now fails _ _)

end EtvStation
