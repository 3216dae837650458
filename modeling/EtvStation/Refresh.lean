import EtvStation.Ticks
import EtvStation.Wipe

/-! The wipes that make room for a new schedule: a forced refresh, a refresh after a change of the
config, and the repair at a title that is gone. What has started stays. -/
namespace EtvStation

open Bumper
open Lib (Ensures)

variable {β : Type}

/-- Where a refresh cuts, given the spans of published items: the finish of the item on screen,
else `now`. -/
def cutAfterAiring (items : List (ℤ × ℤ)) (now : ℤ) : ℤ :=
  ((items.filter fun i => i.1 ≤ now ∧ now < i.2).map Prod.snd).foldl max now

/-- The earliest start of an unaired item whose entry is missing. -/
def firstUnplayable (missing : String → Bool) (unaired : List (String × ℤ)) : Option ℤ :=
  unaired.foldl (fun earliest e =>
    if earliest.any (· ≤ e.2) then earliest else if missing e.1 then some e.2 else earliest) none

namespace TickEnv

variable (env : TickEnv β)

/-- Every file that could hold the item on screen is read: one laid across a boundary is in two. -/
def airingItemFinish : EStateM Fault (Store β) ℤ := do
  let files ← env.scan .floor
  let read ← lift ((files.filter fun f => f.start ≤ env.now ∧ f.finish ≥ env.now).mapM
    ChunkFile.read)
  return read.foldl
    (fun cut items => max cut (cutAfterAiring (items.map fun i => (i.start, i.finish)) env.now))
    env.now

/-- Throw the schedule away from the next item boundary forward. -/
def refreshForward (resume : ResumeMap) : EStateM Fault (Store β) ResumeMap := do
  let regenFrom ← env.airingItemFinish
  env.wipePlayoutFrom regenFrom
  env.rewindToSurviving .heal resume regenFrom

def unairedItems : EStateM Fault (Store β) (List (String × ℤ)) := do
  let files ← env.scan .gap
  let read ← lift ((files.filter fun f => ¬ f.finish ≤ env.now).mapM ChunkFile.read)
  return (read.flatten.filter fun i => i.start > env.now).map fun i => (i.id, i.start)

/-- A title that is no longer in the library is wiped from its own start on. -/
def repairUnplayable (missing : String → Bool) (resume : ResumeMap) :
    EStateM Fault (Store β) ResumeMap := do
  let unaired ← env.unairedItems
  match firstUnplayable missing unaired with
  | none => return resume
  | some regenFrom =>
    env.wipePlayoutFrom regenFrom
    env.rewindToSurviving .heal resume regenFrom

/-- A refresh at startup: one that is asked for, or that a config other than the one the schedule
was made under calls for. -/
def refreshAtStartup (configId : Option String) (forced : Bool) (resume : ResumeMap) :
    EStateM Fault (Store β) ResumeMap :=
  let changed := configId.isSome ∧ resume.configId ≠ configId
  if forced ∨ (changed ∧ resume.configId.isSome) then env.refreshForward resume else return resume

/-- Name the config that the schedule is made under from now on. -/
def adoptConfig (configId : Option String) (resume : ResumeMap) :
    EStateM Fault (Store β) ResumeMap :=
  if resume.configId ≠ configId then do
    let resume := { resume with configId }
    env.attempt (.save .heal)
    modifyThe (Store β) fun s => { s with sidecar := resume }
    return resume
  else return resume

/-- What is done at startup before the first catch-up. -/
def settle (configId : Option String) (forced : Bool) (missing : String → Bool)
    (resume : ResumeMap) : EStateM Fault (Store β) ResumeMap := do
  let resume ← env.refreshAtStartup configId forced resume
  let resume ← env.adoptConfig configId resume
  env.repairUnplayable missing resume

end TickEnv

section Cut

/-- The items of a chain that end by an instant inside none of them lie end to end up to it. -/
theorem Covers.upTo {s f cut : ℤ} {l : List (PlayoutItem β)} (h : Covers s f l)
    (hpos : ∀ a ∈ l, a.start < a.finish) (hs : s ≤ cut) (hf : cut ≤ f)
    (hacross : ∀ a ∈ l, a.finish ≤ cut ∨ cut ≤ a.start) :
    Covers s cut (l.filter fun a => a.finish ≤ cut) := by
  induction l generalizing s with
  | nil =>
    have hend : s = f := h
    exact le_antisymm hs (hend ▸ hf)
  | cons a l ih =>
    obtain ⟨rfl, hle, hrest⟩ := h
    have ha := hpos a List.mem_cons_self
    by_cases hends : a.finish ≤ cut
    · rw [List.filter_cons_of_pos (by simpa using hends)]
      exact ⟨rfl, hle, ih hrest (fun b hb => hpos b (List.mem_cons_of_mem _ hb)) hends
        fun b hb => hacross b (List.mem_cons_of_mem _ hb)⟩
    · have hcut := (hacross a List.mem_cons_self).resolve_left hends
      have hnone : (a :: l).filter (fun a => a.finish ≤ cut) = [] := by
        refine List.filter_eq_nil_iff.mpr fun b hb => ?_
        rw [decide_eq_true_iff, not_le]
        rcases List.mem_cons.mp hb with rfl | hb
        · omega
        · have := (hrest.mem hb).1
          have := hpos b (List.mem_cons_of_mem _ hb)
          omega
      rw [hnone]
      exact le_antisymm hs hcut

theorem programmes_cons (e : ResolvedItem β × ℕ) (rule : Sequential β) (from_ : ℤ) :
    programmes (e :: rule) from_ =
      (if e.1.bumper.isSome then [] else [(e.1.id, from_)]) ++ programmes rule (from_ + e.2) := by
  rw [programmes, Sequential.itemSpans, List.filterMap_cons]
  split_ifs <;> rfl

theorem Covers.apart {s f : ℤ} {l : List (PlayoutItem β)} (h : Covers s f l)
    (hpos : ∀ a ∈ l, a.start < a.finish) : Lib.Apart (·.start) (·.finish) l :=
  ⟨fun a ha => (hpos a ha).le, h.pairwise⟩

/-- One item of a chain is on at a time. -/
theorem Covers.airs_one {s f t : ℤ} {l : List (PlayoutItem β)} (h : Covers s f l)
    (hpos : ∀ a ∈ l, a.start < a.finish) {a b : PlayoutItem β} (ha : a ∈ l) (hb : b ∈ l)
    (hat : a.start ≤ t ∧ t < a.finish) (hbt : b.start ≤ t ∧ t < b.finish) : a = b := by
  rcases (h.apart hpos).before_or_after ha hb with heq | hbefore | hafter
  · exact heq
  · omega
  · omega

/-- The rows before the cut are those of the items that end by it. -/
theorem programmes_upTo {rule : Sequential β} {cut from_ : ℤ}
    (hpos : ∀ a ∈ rule.laid from_, a.start < a.finish)
    (hacross : ∀ a ∈ rule.laid from_, a.finish ≤ cut ∨ cut ≤ a.start) :
    (programmes rule from_).filter (fun e => e.2 < cut) =
      programmes (Sequential.upTo cut from_ rule) from_ := by
  induction rule generalizing from_ with
  | nil => rfl
  | cons e rule ih =>
    obtain ⟨item, dur⟩ := e
    have hlaid : Sequential.laid ((item, dur) :: rule) from_ =
        buildPlayoutItem item from_ (from_ + dur) :: Sequential.laid rule (from_ + dur) := rfl
    rw [hlaid] at hpos hacross
    have hfirst := hpos _ List.mem_cons_self
    have hside := hacross _ List.mem_cons_self
    rw [buildPlayoutItem_start, buildPlayoutItem_finish] at hfirst hside
    rw [Sequential.upTo]
    split_ifs with hends
    · rw [programmes_cons, programmes_cons, List.filter_append,
        ih (fun a ha => hpos a (List.mem_cons_of_mem _ ha))
          fun a ha => hacross a (List.mem_cons_of_mem _ ha)]
      refine congrArg (· ++ _) (List.filter_eq_self.mpr fun e he => ?_)
      split_ifs at he
      · cases he
      · rw [List.mem_singleton.mp he]
        exact decide_eq_true (by dsimp only; omega)
    · have hcut := hside.resolve_left hends
      refine List.filter_eq_nil_iff.mpr fun e he => ?_
      obtain ⟨a, ha, hstart⟩ := List.mem_map.mp
        ((programmes_starts _ _).subset (List.mem_map_of_mem he))
      have := ((Sequential.laid_covers _ _).mem ha).1
      rw [decide_eq_true_iff, ← hstart]
      omega

end Cut

section Wipes

variable {env : TickEnv β} {now end_ cut : ℤ} {all : List (PlayoutItem β)}

/-- No step of the tick fails. -/
def TickEnv.Untroubled (env : TickEnv β) : Prop := ∀ step, env.fails step = false

theorem untroubled_attempt (hplain : env.Untroubled) (step : Step) :
    env.attempt step = pure () := by
  rw [TickEnv.attempt, hplain step]
  rfl

/-- A wipe touches nothing but the folder. -/
theorem wipePlayoutFrom_ledger (cut : ℤ) (s : Store β) :
    Ensures (env.wipePlayoutFrom cut) s (fun _ s' => s'.ledger = s.ledger) fun _ => True := by
  have hset : ∀ (f : Folder β → Folder β) (s' : Store β), s'.ledger = s.ledger →
      Ensures (TickEnv.setFolder f) s' (fun _ s' => s'.ledger = s.ledger) fun _ => True :=
    fun f s' hs => hs
  have hremove : ∀ (f : ChunkFile β) (s' : Store β), s'.ledger = s.ledger →
      Ensures (env.removeFile f) s' (fun _ s' => s'.ledger = s.ledger) fun _ => True := by
    intro f s' hs
    unfold TickEnv.removeFile
    split_ifs
    · exact hset _ s' hs
    · trivial
  refine (TickEnv.scan_ensures (Q := fun _ s' => s'.ledger = s.ledger) rfl trivial).bind
    fun files s' hs => ?_
  refine (Ensures.forM _ (fun f _ => hremove f) hs).bind fun _ s' hs => ?_
  refine Ensures.forM _ (fun f _ s' hs => ?_) hs
  refine (TickEnv.lift_ensures (Q := fun _ s' => s'.ledger = s.ledger) (fun _ _ => hs)
    trivial).bind fun items s' hs => ?_
  dsimp only
  split_ifs
  · exact hs
  · split
    · exact hremove f s' hs
    · refine (TickEnv.attempt_ensures (Q := fun _ s' => s'.ledger = s.ledger) (fun _ => hs)
        trivial).bind fun _ s' hs => (hset _ s' hs).bind fun _ s' hs => ?_
      split_ifs
      · exact hremove f s' hs
      · exact hs

/-- A wipe inside no item leaves the schedule up to there. -/
theorem Standing.wiped {s : Store β} (h : Standing env.grid now end_ all s.folder)
    (hremoves : ∀ f, env.os.removes f) (hplain : env.Untroubled) (hnow : now ≤ cut)
    (hend : cut ≤ end_) (hacross : ∀ a ∈ all, a.finish ≤ cut ∨ cut ≤ a.start) :
    ∃ s', (env.wipePlayoutFrom cut).run s = .ok ⟨⟩ s' ∧ s'.ledger = s.ledger ∧
      Standing env.grid now cut (all.filter fun a => a.finish ≤ cut) s'.folder := by
  obtain ⟨start, hstart, hcovers⟩ := h.covers
  obtain ⟨laid, hstored, hall⟩ := h.stored
  classical
  set laid' : ℤ → List (PlayoutItem β) := fun c =>
    if env.grid.boundary c = c then laid c else [] with hlaid'
  have hsame : ∀ c, env.grid.boundary c = c → laid' c = laid c := fun c hc => if_pos hc
  have hsub : ∀ c, (laid' c).Sublist all := by
    intro c
    rw [hlaid']
    dsimp only
    split_ifs with hc
    · rcases hall c hc with heq | ⟨hnil, -⟩
      · exact heq ▸ List.Sublist.refl _
      · exact hnil ▸ List.nil_sublist _
    · exact List.nil_sublist _
  have hapart := hcovers.apart h.positive
  obtain ⟨s', hrun, hleft⟩ := @wipePlayoutFrom_stored _ env laid' cut hremoves (hplain _)
    (fun _ => hplain _) s (hstored.congr fun c hc => by rw [hsame c hc])
    (fun c => hapart.sublist (hsub c)) (fun c a ha => h.positive a ((hsub c).subset ha))
    fun c a ha => hacross a ((hsub c).subset ha)
  have hledger := @wipePlayoutFrom_ledger _ env cut s
  rw [Ensures, hrun] at hledger
  refine ⟨s', hrun, hledger, ⟨start, hstart, ?_⟩,
    fun a ha => h.positive a (List.mem_filter.mp ha).1, _, hleft, fun c hc => ?_⟩
  · exact hcovers.upTo h.positive (hstart.trans hnow) hend hacross
  · rw [hsame c hc]
    rcases hall c hc with heq | ⟨hnil, hover⟩
    · exact Or.inl (by rw [heq])
    · exact Or.inr ⟨by rw [hnil]; rfl, hover⟩

/-- A schedule reaches no further than its end. -/
theorem Standing.survivingFrontier {folder : Folder β}
    (h : Standing env.grid now cut all folder) : survivingFrontier env.os folder cut = cut := by
  obtain ⟨start, -, hcovers⟩ := h.covers
  refine survivingFrontier_eq _ fun f hf => ?_
  obtain ⟨-, hne, hfile⟩ := h.file hf
  have hby : ∀ a ∈ chunkItems env.grid all f.start, a.finish ≤ cut := fun a ha =>
    (hcovers.mem (mem_chunkItems.mp ha).1).2.2
  constructor
  · rw [hfile, chunkFile_finish (List.getLast?_eq_some_getLast hne)]
    exact (min_le_left _ _).trans (hby _ (List.getLast_mem hne))
  · rw [h.items hf]
    exact hby

theorem rewindToSurviving_run (hplain : env.Untroubled) (part : Part) (resume : ResumeMap)
    (wipedFrom : ℤ) (s : Store β) :
    ∃ rewound, (env.rewindToSurviving part resume wipedFrom).run s = .ok rewound { s with
      ledger := s.ledger.filter fun r => r.start < survivingFrontier env.os s.folder wipedFrom
      sidecar := rewound } := by
  unfold TickEnv.rewindToSurviving
  simp only [untroubled_attempt hplain]
  exact ⟨_, rfl⟩

/-- An instant from `now` on that is inside no item, and before which all that has started ends. -/
structure CutsAhead (now end_ : ℤ) (all : List (PlayoutItem β)) (cut : ℤ) : Prop where
  ahead : now ≤ cut
  inside : cut ≤ end_
  across : ∀ a ∈ all, a.finish ≤ cut ∨ cut ≤ a.start
  kept : ∀ a ∈ all, a.start ≤ now → a.finish ≤ cut

theorem foldl_max_spec (now : ℤ) (l : List ℤ) :
    now ≤ l.foldl max now ∧ (∀ x ∈ l, x ≤ l.foldl max now) ∧
      (l.foldl max now = now ∨ l.foldl max now ∈ l) := by
  induction l generalizing now with
  | nil => exact ⟨le_rfl, by simp, Or.inl rfl⟩
  | cons x l ih =>
    obtain ⟨hfirst, hall, hone⟩ := ih (max now x)
    rw [List.foldl_cons]
    refine ⟨(le_max_left _ _).trans hfirst, fun y hy => ?_, ?_⟩
    · rcases List.mem_cons.mp hy with rfl | hy
      · exact (le_max_right _ _).trans hfirst
      · exact hall y hy
    · rcases hone with hone | hone
      · rw [hone]
        rcases max_choice now x with hmax | hmax
        · exact Or.inl hmax
        · exact Or.inr (hmax.symm ▸ List.mem_cons_self)
      · exact Or.inr (List.mem_cons_of_mem _ hone)

/-- The cut is past every item on screen, and is `now` or where one of them ends. -/
theorem cutAfterAiring_spec (items : List (ℤ × ℤ)) (now : ℤ) :
    now ≤ cutAfterAiring items now ∧
      (∀ i ∈ items, i.1 ≤ now → now < i.2 → i.2 ≤ cutAfterAiring items now) ∧
      (cutAfterAiring items now = now ∨
        ∃ i ∈ items, i.1 ≤ now ∧ now < i.2 ∧ cutAfterAiring items now = i.2) := by
  obtain ⟨hnow, hall, hone⟩ := foldl_max_spec now
    ((items.filter fun i => i.1 ≤ now ∧ now < i.2).map Prod.snd)
  refine ⟨hnow, fun i hi hstart hfinish => hall _ (List.mem_map_of_mem (List.mem_filter.mpr
    ⟨hi, decide_eq_true ⟨hstart, hfinish⟩⟩)), hone.imp_right fun hin => ?_⟩
  obtain ⟨i, hi, heq⟩ := List.mem_map.mp hin
  obtain ⟨hi, hair⟩ := List.mem_filter.mp hi
  obtain ⟨hstart, hfinish⟩ := of_decide_eq_true hair
  exact ⟨i, hi, hstart, hfinish, heq.symm⟩

theorem scan_run (hplain : env.Untroubled) (part : Part) (s : Store β) :
    (env.scan part).run s = .ok (scanOutputFolder env.os s.folder) s := by
  rw [TickEnv.scan, untroubled_attempt hplain]
  rfl

/-- A forced refresh cuts where the item on screen ends. -/
theorem airingItemFinish_run {s : Store β} (h : Standing env.grid now end_ all s.folder)
    (hplain : env.Untroubled) (hnow : now ≤ env.now) (hend : env.now ≤ end_) :
    ∃ cut, env.airingItemFinish.run s = .ok cut s ∧ CutsAhead env.now end_ all cut ∧
      ∀ a ∈ all, a.finish ≤ cut → a.start ≤ env.now := by
  obtain ⟨start, -, hcovers⟩ := h.covers
  set files := (scanOutputFolder env.os s.folder).filter fun f =>
    f.start ≤ env.now ∧ f.finish ≥ env.now with hfiles
  have hmem : ∀ f, f ∈ files ↔ f ∈ s.folder ∧ f.start ≤ env.now ∧ f.finish ≥ env.now := by
    intro f
    rw [hfiles, List.mem_filter, mem_scanOutputFolder, decide_eq_true_iff]
  have hread : files.mapM ChunkFile.read = .ok (files.map fun f => f.items.getD []) :=
    mapM_read.mpr ⟨fun f hf => by rw [h.items ((hmem f).mp hf).1]; rfl, rfl⟩
  set spans : Folder β → List ℤ := fun files => files.map fun f =>
    cutAfterAiring ((f.items.getD []).map fun i => (i.start, i.finish)) env.now with hspans
  have hrun : env.airingItemFinish.run s = .ok ((spans files).foldl max env.now) s := by
    rw [TickEnv.airingItemFinish, EStateM.run_bind, scan_run hplain]
    dsimp only
    rw [← hfiles, hread, hspans]
    dsimp only
    rw [List.foldl_map, ← List.foldl_map (f := fun f : ChunkFile β => f.items.getD [])
      (g := fun cut items => max cut
        (cutAfterAiring (items.map fun i : PlayoutItem β => (i.start, i.finish)) env.now))]
    rfl
  obtain ⟨hahead, hall, hone⟩ := foldl_max_spec env.now (spans files)
  set cut := (spans files).foldl max env.now with hcut
  have hone' : cut = env.now ∨ ∃ a ∈ all, a.start ≤ env.now ∧ env.now < a.finish ∧
      cut = a.finish := by
    rcases hone with hone | hone
    · exact Or.inl hone
    · obtain ⟨f, hf, hspan⟩ := List.mem_map.mp hone
      obtain ⟨-, -, hone⟩ := cutAfterAiring_spec
        ((f.items.getD []).map fun i => (i.start, i.finish)) env.now
      rw [hspan] at hone
      refine hone.imp_right fun hspan => ?_
      obtain ⟨i, hi, hstart, hfinish, heq⟩ := hspan
      obtain ⟨a, ha, rfl⟩ := List.mem_map.mp hi
      rw [h.items ((hmem f).mp hf).1] at ha
      exact ⟨a, (mem_chunkItems.mp ha).1, hstart, hfinish, heq⟩
  -- What is on screen is in the file of the chunk, and nothing else is.
  have hairing : ∀ a ∈ all, a.start ≤ env.now → env.now < a.finish → a.finish ≤ cut := by
    intro a ha hstart hfinish
    have hover := (hcovers.mem ha).2.2
    obtain ⟨b, hb, hbair, hfile⟩ := h.on_air hnow (by omega)
    have hsame : a = b := hcovers.airs_one h.positive ha (mem_chunkItems.mp hb).1
      ⟨hstart, hfinish⟩ hbair
    have hle := env.grid.boundary_le env.now
    have hlt := env.grid.lt_next env.now
    have hne := List.ne_nil_of_mem hb
    have hin := (hmem _).mpr ⟨hfile, hle, ?_⟩
    · have hcutFile := hall _ (List.mem_map.mpr ⟨_, hin, rfl⟩)
      obtain ⟨-, hpast, -⟩ := cutAfterAiring_spec
        ((chunkItems env.grid all (env.grid.boundary env.now)).map
          fun i => (i.start, i.finish)) env.now
      exact (hpast _ (List.mem_map.mpr ⟨b, hb, rfl⟩) hbair.1 hbair.2 |>.trans hcutFile).trans_eq'
        (by rw [hsame])
    · rw [chunkFile_finish (List.getLast?_eq_some_getLast hne)]
      refine le_min ?_ hlt.le
      obtain ⟨lo, hi, hcov⟩ := chunkItems_covers env.grid hcovers h.positive
        (env.grid.boundary env.now)
      have hlast := hcov.getLast_finish (List.getLast?_eq_some_getLast hne)
      have := (hcov.mem hb).2.2
      omega
  have hapart := hcovers.apart h.positive
  refine ⟨cut, hrun, ⟨hahead, ?_, fun b hb => ?_, fun b hb hstart => ?_⟩, fun b hb hby => ?_⟩
  · rcases hone' with heq | ⟨a, ha, -, -, heq⟩
    · exact heq ▸ hend
    · exact heq ▸ (hcovers.mem ha).2.2
  · by_contra hinside
    rw [not_or, not_le, not_le] at hinside
    have := hairing b hb
    rcases hone' with heq | ⟨a, ha, hstart, hfinish, heq⟩
    · omega
    · rcases hapart.before_or_after ha hb with rfl | hbefore | hafter
      · omega
      · omega
      · omega
  · by_cases hfinish : env.now < b.finish
    · exact hairing b hb hstart hfinish
    · exact (not_lt.mp hfinish).trans hahead
  · have := h.positive b hb
    rcases hone' with heq | ⟨a, ha, hstart, hfinish, heq⟩
    · omega
    · rcases hapart.before_or_after ha hb with rfl | hbefore | hafter
      · exact hstart
      · omega
      · omega

/-- What the repair looks for is the earliest start of a missing entry. -/
theorem firstUnplayable_eq (missing : String → Bool) (unaired : List (String × ℤ)) :
    firstUnplayable missing unaired =
      ((unaired.filter fun e => missing e.1).map Prod.snd).min? := by
  have hfold : ∀ (l : List (String × ℤ)) (earliest : Option ℤ),
      l.foldl (fun earliest e => if earliest.any (· ≤ e.2) then earliest
        else if missing e.1 then some e.2 else earliest) earliest =
      (earliest.toList ++ (l.filter fun e => missing e.1).map Prod.snd).min? := by
    intro l
    induction l with
    | nil =>
      intro earliest
      cases earliest <;> rfl
    | cons e l ih =>
      intro earliest
      rw [List.foldl_cons, ih, List.filter_cons]
      cases hmissing : missing e.1 with
      | false => simp
      | true =>
        cases earliest with
        | none => simp
        | some first =>
          rw [Option.any_some, if_pos rfl]
          by_cases hle : first ≤ e.2
          · rw [if_pos (decide_eq_true hle)]
            rw [Option.toList_some, List.singleton_append, List.singleton_append, if_pos rfl,
              List.map_cons]
            rw [List.min?_cons', List.min?_cons', List.foldl_cons, min_eq_left hle]
          · rw [if_neg (fun h => hle (of_decide_eq_true h)), if_pos rfl,
              Option.toList_some, Option.toList_some, List.singleton_append,
              List.singleton_append, List.map_cons]
            rw [List.min?_cons', List.min?_cons', List.foldl_cons, min_eq_right (not_le.mp hle).le]
  exact hfold unaired none

/-- What is to come is all of the schedule's, each item where a wipe may cut. -/
theorem unairedItems_run {s : Store β} (h : Standing env.grid now end_ all s.folder)
    (hplain : env.Untroubled) (hnow : now ≤ env.now) :
    ∃ unaired, env.unairedItems.run s = .ok unaired s ∧
      (∀ e ∈ unaired, CutsAhead env.now end_ all e.2) ∧
      ∀ a ∈ all, env.now < a.start → (a.id, a.start) ∈ unaired := by
  obtain ⟨start, -, hcovers⟩ := h.covers
  have hapart := hcovers.apart h.positive
  set files := (scanOutputFolder env.os s.folder).filter fun f => ¬ f.finish ≤ env.now with hfiles
  have hmem : ∀ f, f ∈ files ↔ f ∈ s.folder ∧ env.now < f.finish := by
    intro f
    rw [hfiles, List.mem_filter, mem_scanOutputFolder, decide_eq_true_iff, not_le]
  have hread : files.mapM ChunkFile.read = .ok (files.map fun f => f.items.getD []) :=
    mapM_read.mpr ⟨fun f hf => by rw [h.items ((hmem f).mp hf).1]; rfl, rfl⟩
  set items := (files.map fun f => f.items.getD []).flatten with hitems
  have hstored : ∀ a ∈ items, a ∈ all := by
    intro a ha
    obtain ⟨read, hin, ha⟩ := List.mem_flatten.mp ha
    obtain ⟨f, hf, rfl⟩ := List.mem_map.mp hin
    rw [h.items ((hmem f).mp hf).1, Option.getD_some] at ha
    exact (mem_chunkItems.mp ha).1
  -- The file of the chunk that an item opens in is not over before it.
  have hfound : ∀ a ∈ all, env.now < a.start → a ∈ items := by
    intro a ha hlater
    have hpos := h.positive a ha
    have hend := (hcovers.mem ha).2.2
    obtain ⟨b, hb, hair, hfile⟩ := h.on_air (t := a.start) (hnow.trans hlater.le) (by omega)
    obtain rfl := hcovers.airs_one h.positive (mem_chunkItems.mp hb).1 ha hair ⟨le_rfl, hpos⟩
    obtain ⟨lo, hi, hcov⟩ := chunkItems_covers env.grid hcovers h.positive
      (env.grid.boundary b.start)
    have hlast := (hcov.mem hb).2.2
    have hlt := env.grid.lt_next b.start
    refine List.mem_flatten.mpr ⟨_, List.mem_map.mpr ⟨_, (hmem _).mpr ⟨hfile, ?_⟩, rfl⟩, hb⟩
    rw [lt_chunkFile_finish hcov (List.ne_nil_of_mem hb)]
    omega
  refine ⟨(items.filter fun i => i.start > env.now).map fun i => (i.id, i.start), ?_,
    fun e he => ?_, fun a ha hlater => ?_⟩
  · rw [TickEnv.unairedItems, EStateM.run_bind, scan_run hplain]
    dsimp only
    rw [← hfiles, hread]
    rfl
  · obtain ⟨a, ha, rfl⟩ := List.mem_map.mp he
    obtain ⟨ha, hlater⟩ := List.mem_filter.mp ha
    have hlater := of_decide_eq_true hlater
    have ha := hstored a ha
    have hpos := h.positive a ha
    have hend := (hcovers.mem ha).2.2
    refine ⟨hlater.le, by dsimp only; omega, fun b hb => ?_, fun b hb hstart => ?_⟩
    all_goals
      dsimp only
      rcases hapart.before_or_after ha hb with rfl | hbefore | hafter
    · exact Or.inr le_rfl
    · exact Or.inr (hpos.le.trans hbefore)
    · exact Or.inl hafter
    · omega
    · omega
    · exact hafter
  · exact List.mem_map.mpr ⟨a, List.mem_filter.mpr ⟨hfound a ha hlater, decide_eq_true hlater⟩, rfl⟩

end Wipes

/-- What of `rule` has begun by `now` is what `rule'` begins with. -/
def Keeps (now base : ℤ) (rule rule' : Sequential β) : Prop :=
  ∃ kept dropped, rule = kept ++ dropped ∧ kept <+: rule' ∧
    ∀ a ∈ Sequential.laid dropped (base + kept.walked), now < a.start

section Kept

variable {now now' base cut : ℤ} {rule rule' rule'' : Sequential β}

theorem Keeps.of_begins (h : rule <+: rule') : Keeps now base rule rule' :=
  ⟨rule, [], (List.append_nil rule).symm, h, fun _ ha => absurd ha List.not_mem_nil⟩

/-- What is kept at an instant was kept, as far as it had begun, before. -/
theorem Keeps.trans (h : Keeps now base rule rule') (h' : Keeps now' base rule' rule'')
    (hle : now ≤ now') : Keeps now base rule rule'' := by
  obtain ⟨kept, dropped, rfl, ⟨rest, rfl⟩, hlater⟩ := h
  obtain ⟨kept', dropped', hsplit, hprefix, hlater'⟩ := h'
  rcases List.append_eq_append_iff.mp hsplit with ⟨more, hkept', -⟩ | ⟨more, hkept, hdropped'⟩
  · exact ⟨kept, dropped, rfl, (hkept' ▸ List.prefix_append _ _).trans hprefix, hlater⟩
  · refine ⟨kept', more ++ dropped, by rw [hkept, List.append_assoc], hprefix, fun a ha => ?_⟩
    rw [laid_append, add_assoc, ← Sequential.walked_append, ← hkept] at ha
    rcases List.mem_append.mp ha with ha | ha
    · refine hle.trans_lt (hlater' a ?_)
      rw [hdropped', laid_append]
      exact List.mem_append_left _ ha
    · exact hlater a ha

/-- The items that end by an instant are the first ones. -/
theorem Sequential.upTo_split (cut from_ : ℤ) (rule : Sequential β) :
    ∃ rest, rule = Sequential.upTo cut from_ rule ++ rest ∧
      ∀ a ∈ Sequential.laid rest (from_ + (Sequential.upTo cut from_ rule).walked),
        cut < a.finish := by
  induction rule generalizing from_ with
  | nil => exact ⟨[], rfl, fun _ ha => absurd ha List.not_mem_nil⟩
  | cons e rule ih =>
    obtain ⟨item, dur⟩ := e
    rw [Sequential.upTo]
    split_ifs with hends
    · obtain ⟨rest, hsplit, hlater⟩ := ih (from_ + dur)
      have htotal : Sequential.walked
          ((item, dur) :: Sequential.upTo cut (from_ + dur) rule) =
          dur + (Sequential.upTo cut (from_ + dur) rule).walked := by
        simp only [Sequential.walked, List.map_cons, List.sum_cons]
        push_cast
        rfl
      refine ⟨rest, by rw [List.cons_append, ← hsplit], fun a ha => hlater a ?_⟩
      rwa [htotal, ← add_assoc] at ha
    · have htotal : Sequential.walked ([] : Sequential β) = 0 := rfl
      refine ⟨_, (List.nil_append _).symm, fun a ha => ?_⟩
      rw [htotal, add_zero] at ha
      rcases List.mem_cons.mp ha with rfl | ha
      · rw [buildPlayoutItem_finish]
        exact not_le.mp hends
      · have := ((Sequential.laid_covers _ _).mem ha)
        omega

theorem CutsAhead.keeps {end_ : ℤ} (h : CutsAhead now end_ (rule.laid base) cut) :
    Keeps now base rule (Sequential.upTo cut base rule) := by
  obtain ⟨rest, hsplit, hlater⟩ := Sequential.upTo_split cut base rule
  refine ⟨_, rest, hsplit, List.prefix_rfl, fun a ha => not_le.mp fun hstart => ?_⟩
  have hmem : a ∈ rule.laid base := by
    rw [hsplit, laid_append]
    exact List.mem_append_right _ ha
  exact absurd (h.kept a hmem hstart) (not_le.mpr (hlater a ha))

end Kept

theorem Rolled.clock {os : Os β} {grid : ChunkGrid} {p : Point β} {lo last : ℤ}
    {at_ : Store β × ResumeMap} (h : Rolled os grid p lo last at_) : lo ≤ last := by
  induction h with
  | start => exact le_rfl
  | tick _ _ _ _ _ _ hclock _ _ _ ih => exact ih.trans hclock

/-- A channel's state on disk and in the loop: the schedule of `rule` from `base` on, not over at
`now` and without a hole, a row for each programme, and the sidecar's state. -/
structure Scheduled (grid : ChunkGrid) (base now : ℤ) (rule : Sequential β)
    (at_ : Store β × ResumeMap) : Prop where
  begun : base ≤ now
  lasts : now ≤ base + rule.walked
  standing : Standing grid now (base + rule.walked) (rule.laid base) at_.1.folder
  rows : at_.1.ledger.map (fun r => (r.entryId, r.start)) = programmes rule base
  sidecar : at_.1.sidecar = at_.2

namespace Scheduled

variable {env : TickEnv β} {grid : ChunkGrid} {base now cut : ℤ} {rule : Sequential β}
  {disk : Store β} {resume : ResumeMap}

theorem fresh {at_ : Store β × ResumeMap} (h : Scheduled grid base now rule at_)
    (hnone : rule.laid base = []) : base + rule.walked = now := by
  have hcovers := rule.laid_covers base
  rw [hnone] at hcovers
  have hend : base = base + rule.walked := hcovers
  have := h.begun
  have := h.lasts
  omega

/-- Before the schedule runs out it is no other at a later clock. -/
theorem later {at_ : Store β × ResumeMap} {now' : ℤ} (h : Scheduled grid base now rule at_)
    (os : Os β) (hclock : now ≤ now')
    (hahead : now' ≤ (highestFinish (scanOutputFolder os at_.1.folder)).getD now) :
    Scheduled grid base now' rule at_ :=
  ⟨h.begun.trans hclock, (h.standing.ahead os h.lasts h.fresh hclock hahead).1,
    h.standing.later hclock, h.rows, h.sidecar⟩

theorem rolled {os : Os β} {last : ℤ} {first : Bool} {at_ : Store β × ResumeMap}
    (h : Scheduled grid base now rule (disk, resume)) (hremoves : ∀ f, os.removes f)
    (hrolled : Rolled os grid ⟨base + rule.walked, first, resume, disk⟩ now last at_) :
    ∃ rule', Scheduled grid base last (rule ++ rule') at_ := by
  obtain ⟨rule', q, hdisk, hresume, hlast, -, hext⟩ :=
    hrolled.extends hremoves h.standing h.lasts h.fresh h.sidecar
  have hends : q.from_ = base + Sequential.walked (rule ++ rule') := by
    rw [hext.ends, Sequential.walked_append, add_assoc]
  have hlate := hrolled.clock
  refine ⟨rule', h.begun.trans hlate, hends ▸ hlast, ?_, ?_, ?_⟩
  · rw [laid_append, ← hends, ← hdisk]
    exact hext.standing
  · rw [programmes_append, ← hdisk, hext.rows]
    exact congrArg (· ++ _) h.rows
  · rw [← hdisk, ← hresume]
    exact hext.sidecar

/-- A wipe and a rewind inside no item leave the schedule up to there. -/
theorem regenerated (h : Scheduled env.grid base now rule (disk, resume))
    (hremoves : ∀ f, env.os.removes f) (hplain : env.Untroubled)
    (hcut : CutsAhead now (base + rule.walked) (rule.laid base) cut) (part : Part) :
    ∃ rewound disk', (env.wipePlayoutFrom cut >>= fun _ =>
        env.rewindToSurviving part resume cut).run disk = .ok rewound disk' ∧
      Scheduled env.grid base now (Sequential.upTo cut base rule) (disk', rewound) := by
  obtain ⟨s', hwipe, hledger, hleft⟩ :=
    h.standing.wiped hremoves hplain hcut.ahead hcut.inside hcut.across
  obtain ⟨rewound, hrewind⟩ := rewindToSurviving_run hplain part resume cut s'
  rw [hleft.survivingFrontier] at hrewind
  have hends : cut = base + (Sequential.upTo cut base rule).walked := by
    have hcovers := (rule.laid_covers base).upTo h.standing.positive
      (h.begun.trans hcut.ahead) hcut.inside hcut.across
    rw [← Sequential.laid_upTo] at hcovers
    exact hcovers.unique (Sequential.laid_covers _ base)
  refine ⟨rewound,
    { s' with ledger := s'.ledger.filter fun r => r.start < cut, sidecar := rewound },
    by rw [EStateM.run_bind, hwipe]; exact hrewind, h.begun, hends ▸ hcut.ahead, ?_, ?_, rfl⟩
  · rw [← hends, Sequential.laid_upTo]
    exact hleft
  · dsimp only
    rw [← programmes_upTo h.standing.positive hcut.across, ← h.rows, hledger, List.filter_map]
    rfl

/-- A refresh leaves what has begun. -/
theorem refreshForward (h : Scheduled env.grid base env.now rule (disk, resume))
    (hremoves : ∀ f, env.os.removes f) (hplain : env.Untroubled) :
    ∃ next disk', (env.refreshForward resume).run disk = .ok next disk' ∧
      ∃ cut, CutsAhead env.now (base + rule.walked) (rule.laid base) cut ∧
        (∀ a ∈ rule.laid base, a.finish ≤ cut → a.start ≤ env.now) ∧
        Scheduled env.grid base env.now (Sequential.upTo cut base rule) (disk', next) := by
  obtain ⟨cut, hfinds, hcut, hbegun⟩ := airingItemFinish_run h.standing hplain le_rfl h.lasts
  obtain ⟨next, disk', hrun, hleft⟩ := h.regenerated hremoves hplain hcut .heal
  refine ⟨next, disk', ?_, cut, hcut, hbegun, hleft⟩
  rw [TickEnv.refreshForward, EStateM.run_bind, hfinds]
  exact hrun

/-- A repair leaves what has begun, and of what is to come only what can be played. -/
theorem repairUnplayable (h : Scheduled env.grid base env.now rule (disk, resume))
    (hremoves : ∀ f, env.os.removes f) (hplain : env.Untroubled) (missing : String → Bool) :
    ∃ next disk', (env.repairUnplayable missing resume).run disk = .ok next disk' ∧
      ∃ rule', Keeps env.now base rule rule' ∧
        (∀ a ∈ rule'.laid base, env.now < a.start → missing a.id = false) ∧
        Scheduled env.grid base env.now rule' (disk', next) := by
  obtain ⟨unaired, hfinds, hcuts, hall⟩ := unairedItems_run h.standing hplain le_rfl
  have hmin := firstUnplayable_eq missing unaired
  cases hfirst : firstUnplayable missing unaired with
  | none =>
    refine ⟨resume, disk, ?_, rule, .of_begins List.prefix_rfl, fun a ha hlater => ?_, h⟩
    · rw [TickEnv.repairUnplayable, EStateM.run_bind, hfinds]
      dsimp only
      rw [hfirst]
      rfl
    · rw [hfirst] at hmin
      have hnil := List.map_eq_nil_iff.mp (List.min?_eq_none_iff.mp hmin.symm)
      have := List.filter_eq_nil_iff.mp hnil _ (hall a ha hlater)
      exact Bool.eq_false_iff.mpr this
  | some cut =>
    rw [hfirst] at hmin
    obtain ⟨hmem, hleast⟩ := List.min?_eq_some_iff.mp hmin.symm
    obtain ⟨e, he, rfl⟩ := List.mem_map.mp hmem
    have hcut := hcuts e (List.mem_filter.mp he).1
    obtain ⟨next, disk', hrun, hleft⟩ := h.regenerated hremoves hplain hcut .heal
    refine ⟨next, disk', ?_, _, hcut.keeps, fun a ha hlater => ?_, hleft⟩
    · rw [TickEnv.repairUnplayable, EStateM.run_bind, hfinds]
      dsimp only
      rw [hfirst]
      exact hrun
    · rw [Sequential.laid_upTo] at ha
      obtain ⟨ha, hfinish⟩ := List.mem_filter.mp ha
      refine Bool.eq_false_iff.mpr fun hmissing => ?_
      have := hleast a.start (List.mem_map.mpr
        ⟨_, List.mem_filter.mpr ⟨hall a ha hlater, hmissing⟩, rfl⟩)
      have := h.standing.positive a ha
      have := of_decide_eq_true hfinish
      omega

/-- What is done at startup leaves what has begun. -/
theorem settle (h : Scheduled env.grid base env.now rule (disk, resume))
    (hremoves : ∀ f, env.os.removes f) (hplain : env.Untroubled) (configId : Option String)
    (forced : Bool) (missing : String → Bool) :
    ∃ next disk', (env.settle configId forced missing resume).run disk = .ok next disk' ∧
      ∃ rule', Keeps env.now base rule rule' ∧
        (∀ a ∈ rule'.laid base, env.now < a.start → missing a.id = false) ∧
        Scheduled env.grid base env.now rule' (disk', next) := by
  have hrefresh : ∃ next disk', (env.refreshAtStartup configId forced resume).run disk =
      .ok next disk' ∧ ∃ rule', Keeps env.now base rule rule' ∧
        Scheduled env.grid base env.now rule' (disk', next) := by
    unfold TickEnv.refreshAtStartup
    dsimp only
    split_ifs
    · obtain ⟨next, disk', hrun, cut, hcut, -, hleft⟩ := h.refreshForward hremoves hplain
      exact ⟨next, disk', hrun, _, hcut.keeps, hleft⟩
    · exact ⟨resume, disk, rfl, rule, .of_begins List.prefix_rfl, h⟩
  obtain ⟨mid, disk₁, hone, rule₁, hkeeps₁, hmid⟩ := hrefresh
  have hname : ∃ next disk', (env.adoptConfig configId mid).run disk₁ = .ok next disk' ∧
      Scheduled env.grid base env.now rule₁ (disk', next) := by
    unfold TickEnv.adoptConfig
    split_ifs
    · dsimp only
      rw [untroubled_attempt hplain]
      exact ⟨_, _, rfl, hmid.begun, hmid.lasts, hmid.standing, hmid.rows, rfl⟩
    · exact ⟨mid, disk₁, rfl, hmid⟩
  obtain ⟨named, disk₂, htwo, hnamed⟩ := hname
  obtain ⟨next, disk', hthree, rule', hkeeps, hplays, hleft⟩ :=
    hnamed.repairUnplayable hremoves hplain missing
  refine ⟨next, disk', ?_, rule', hkeeps₁.trans hkeeps le_rfl, hplays, hleft⟩
  rw [TickEnv.settle, EStateM.run_bind, hone]
  dsimp only
  rw [EStateM.run_bind, htwo]
  exact hthree

end Scheduled

def hourlyFirst : Store Unit × ResumeMap := (hourlyAt 0 fun _ => false).rollTick {} {}

theorem hourlyFirst_scheduled : ∃ rule, Scheduled sixHours 0 0 rule hourlyFirst := by
  have hok : (match ((hourlyAt 0 fun _ => false).patternCatchUp {}).run {} with
      | .ok _ _ => true
      | .error _ _ => false) = true := by decide +kernel
  cases hrun : ((hourlyAt 0 fun _ => false).patternCatchUp {}).run {} with
  | error e s =>
    rw [hrun] at hok
    cases hok
  | ok next disk =>
    have hfirst : hourlyFirst = (disk, next) := by
      rw [hourlyFirst, TickEnv.rollTick, hrun]
    have hempty : Scheduled sixHours 0 0 [] (({} : Store Unit), {}) :=
      ⟨le_rfl, le_rfl, ⟨⟨0, le_rfl, rfl⟩, fun _ ha => absurd ha List.not_mem_nil, fun _ => [],
        stored_nil, fun _ _ => Or.inl rfl⟩, rfl, rfl⟩
    have hrolled : Rolled (plainOs Unit) sixHours ⟨0, true, {}, {}⟩ 0 0 (disk, next) :=
      .tick .start rfl rfl rfl (hourlyAt_lays _ _ _ _) (by decide) le_rfl le_rfl
        (by decide) hrun
    rw [hfirst]
    exact hempty.rolled (fun _ => rfl) hrolled

/-- Half an hour into the first clip the channel is where its first tick left it. -/
theorem hourlyFirst_later : ∃ rule, Scheduled sixHours 0 (HOUR / 2) rule hourlyFirst := by
  obtain ⟨rule, hfirst⟩ := hourlyFirst_scheduled
  exact ⟨rule, hfirst.later (plainOs Unit) (by decide) (by decide +kernel)⟩

section Operation

variable {env : TickEnv β} {os : Os β} {grid : ChunkGrid} {base lo last now : ℤ}
  {rule : Sequential β} {disk : Store β} {resume : ResumeMap} {at₀ at_ : Store β × ResumeMap}

/-- What a channel's loop does from `at₀` on, as long as no step of it fails: runs of ticks, the
refreshes asked for between them, and restarts. -/
inductive Operated (os : Os β) (grid : ChunkGrid) (lo : ℤ) (at₀ : Store β × ResumeMap) :
    ℤ → Store β × ResumeMap → Prop
  | start : Operated os grid lo at₀ lo at₀
  | ticks {last now from_ : ℤ} {first : Bool} {disk : Store β} {resume : ResumeMap}
      {at_ : Store β × ResumeMap} (h : Operated os grid lo at₀ last (disk, resume))
      (hticks : Rolled os grid ⟨from_, first, resume, disk⟩ last now at_) :
      Operated os grid lo at₀ now at_
  | refresh {last : ℤ} {disk disk' : Store β} {resume next : ResumeMap} {env : TickEnv β}
      (h : Operated os grid lo at₀ last (disk, resume)) (hos : env.os = os)
      (hgrid : env.grid = grid) (hplain : env.Untroubled) (hclock : last ≤ env.now)
      (hahead : env.now ≤ (highestFinish (scanOutputFolder os disk.folder)).getD last)
      (hrun : (env.refreshForward resume).run disk = .ok next disk') :
      Operated os grid lo at₀ env.now (disk', next)
  | restart {last : ℤ} {disk disk' : Store β} {resume next : ResumeMap} {env : TickEnv β}
      {configId : Option String} {forced : Bool} {missing : String → Bool}
      (h : Operated os grid lo at₀ last (disk, resume)) (hos : env.os = os)
      (hgrid : env.grid = grid) (hplain : env.Untroubled) (hclock : last ≤ env.now)
      (hahead : env.now ≤ (highestFinish (scanOutputFolder os disk.folder)).getD last)
      (hrun : (env.settle configId forced missing disk.sidecar).run disk = .ok next disk') :
      Operated os grid lo at₀ env.now (disk', next)

/-- A run of ticks is the same from wherever the schedule ends. -/
theorem Rolled.reached {p : Point β} (h : Rolled os grid p lo last at_) (from_ : ℤ) :
    Rolled os grid ⟨from_, p.first, p.resume, p.disk⟩ lo last at_ := by
  induction h with
  | start => exact .start
  | tick _ hos hgrid hanchor hmeasured hretention hclock hahead hstranded hrun ih =>
    exact .tick ih hos hgrid hanchor hmeasured hretention hclock hahead hstranded hrun

theorem Operated.clock (h : Operated os grid lo at₀ last at_) : lo ≤ last := by
  induction h with
  | start => exact le_rfl
  | ticks _ hticks ih => exact ih.trans hticks.clock
  | refresh _ _ _ _ hclock _ _ ih => exact ih.trans hclock
  | restart _ _ _ _ hclock _ _ ih => exact ih.trans hclock

/-- A refresh takes off what has not begun, and nothing else. -/
theorem refreshForward_begun (h : Scheduled env.grid base env.now rule (disk, resume))
    (hremoves : ∀ f, env.os.removes f) (hplain : env.Untroubled) :
    ∃ next disk' rule', (env.refreshForward resume).run disk = .ok next disk' ∧
      Scheduled env.grid base env.now rule' (disk', next) ∧
      rule'.laid base = (rule.laid base).filter fun a => a.start ≤ env.now := by
  obtain ⟨next, disk', hrun, cut, hcut, hbegun, hleft⟩ := h.refreshForward hremoves hplain
  refine ⟨next, disk', _, hrun, hleft, ?_⟩
  rw [Sequential.laid_upTo]
  refine List.filter_congr fun a ha => ?_
  rw [decide_eq_decide]
  exact ⟨hbegun a ha, hcut.kept a ha⟩

theorem refreshForward_begun_hourly : ∃ next disk' rule rule',
    ((hourlyAt (HOUR / 2) fun _ => false).refreshForward hourlyFirst.2).run hourlyFirst.1 =
      .ok next disk' ∧ Scheduled sixHours 0 (HOUR / 2) rule' (disk', next) ∧
    rule'.laid 0 = (Sequential.laid rule 0).filter fun a => a.start ≤ HOUR / 2 := by
  obtain ⟨rule, hfirst⟩ := hourlyFirst_later
  rw [← Prod.mk.eta (p := hourlyFirst)] at hfirst
  obtain ⟨next, disk', rule', hrun, hleft, hbegun⟩ :=
    @refreshForward_begun _ (hourlyAt (HOUR / 2) fun _ => false) 0 rule _ _ hfirst (fun _ => rfl)
      fun _ => rfl
  exact ⟨next, disk', rule, rule', hrun, hleft, hbegun⟩

/-- A restart takes off nothing that has begun, and leaves nothing to come that cannot be played. -/
theorem settle_plays (h : Scheduled env.grid base env.now rule (disk, resume))
    (hremoves : ∀ f, env.os.removes f) (hplain : env.Untroubled) (configId : Option String)
    (forced : Bool) (missing : String → Bool) :
    ∃ next disk' rule', (env.settle configId forced missing resume).run disk = .ok next disk' ∧
      Scheduled env.grid base env.now rule' (disk', next) ∧ Keeps env.now base rule rule' ∧
      ∀ a ∈ rule'.laid base, env.now < a.start → missing a.id = false := by
  obtain ⟨next, disk', hrun, rule', hkeeps, hplays, hleft⟩ :=
    h.settle hremoves hplain configId forced missing
  exact ⟨next, disk', rule', hrun, hleft, hkeeps, hplays⟩

theorem settle_plays_hourly : ∃ next disk' rule rule',
    ((hourlyAt (HOUR / 2) fun _ => false).settle none false (· = "b") hourlyFirst.2).run
      hourlyFirst.1 = .ok next disk' ∧ Scheduled sixHours 0 (HOUR / 2) rule' (disk', next) ∧
    Keeps (HOUR / 2) 0 rule rule' ∧
    ∀ a ∈ Sequential.laid rule' 0, HOUR / 2 < a.start → decide (a.id = "b") = false := by
  obtain ⟨rule, hfirst⟩ := hourlyFirst_later
  rw [← Prod.mk.eta (p := hourlyFirst)] at hfirst
  obtain ⟨next, disk', rule', hrun, hleft, hkeeps, hplays⟩ :=
    @settle_plays _ (hourlyAt (HOUR / 2) fun _ => false) 0 rule _ _ hfirst (fun _ => rfl)
      (fun _ => rfl) none false (· = "b")
  exact ⟨next, disk', rule, rule', hrun, hleft, hkeeps, hplays⟩

end Operation

end EtvStation
