import EtvStation.Refresh

/-! The supervisor of a channel's loop: it starts the loop again after each failure, and from the
third on covers the window with cards, which it takes down before the loop is started again. -/
namespace EtvStation

open Bumper
open Lib (Ensures)

variable {β : Type}

def CARD_SEGMENT : ℕ := 300 * 1000000000

def CARD_ID_PREFIX : String := "etv-station-channel-card"

def CHANNEL_RESTART_BACKOFF_START : ℕ := 30 * 1000000000

def CHANNEL_FAILURES_BEFORE_CARD : ℕ := 3

/-- Cards live in the files of real programmes and are told by their id. -/
def isCard (a : PlayoutItem β) : Bool := CARD_ID_PREFIX.toList.isPrefixOf a.id.toList

/-- What a channel's card looks like for a reason, and that the window is a 32-bit number of days. -/
structure CardEnv (β : Type) extends TickEnv β where
  cardParams : String → String
  cardRest : String → β
  window_lt : window < 2 ^ 32 * DAY

namespace CardEnv

variable (env : CardEnv β)

def makeChannelCard (id reason : String) : ResolvedItem β where
  id := id
  source := .lavfi (env.cardParams reason)
  errorCard := true
  rest := env.cardRest reason

/-- The cards that cover `span` and a little more: the last is whole. -/
def cards (reason : String) (span : ℤ) : Sequential β :=
  (List.range ((span + CARD_SEGMENT - 1) / CARD_SEGMENT).toNat).map fun i =>
    (env.makeChannelCard s!"{CARD_ID_PREFIX}-{i}" reason, CARD_SEGMENT)

/-- Fill the span from the end of what is written to the end of the window with cards. -/
def coverAfterWritten (reason : String) : EStateM Fault (Store β) (Option ℤ) := do
  let existing ← env.scan .frontier
  let from_ := max ((highestFinish existing).getD env.now) env.now
  if from_ ≥ env.target then return none
  let rule := env.cards reason (env.target - from_)
  env.emitChunks 0 rule from_ (from_ + rule.totalDuration) rule.totalDuration.toNat from_
  return some from_

/-- Put what is kept of a chunk's items back on disk, under the name it now deserves. -/
def rewriteChunk (f : ChunkFile β) (kept : List (PlayoutItem β)) :
    EStateM Fault (Store β) Unit :=
  match kept.getLast? with
  | none => env.removeFile f
  | some last => do
    let new : ChunkFile β := ⟨f.start, last.finish, some kept⟩
    env.attempt (.rewrite f.name)
    TickEnv.setFolder (writeFile · new)
    if new.name ≠ f.name then
      -- the removal of the old file may fail without notice
      TickEnv.setFolder fun folder => folder.filter fun g => !(g.name = f.name && env.os.removes f)

/-- What is left of a chunk's items without the cards from `from_` on. -/
def kept (from_ : ℤ) (items : List (PlayoutItem β)) : List (PlayoutItem β) :=
  items.filter fun i => !(isCard i && from_ ≤ i.start)

def dropCards (from_ : ℤ) (f : ChunkFile β) : EStateM Fault (Store β) ℕ := do
  let items ← TickEnv.lift f.read
  let left := kept from_ items
  if left.length = items.length then return 0
  env.rewriteChunk f left
  return items.length - left.length

def wipeCardsFrom (from_ : ℤ) : EStateM Fault (Store β) ℕ := do
  let files ← env.scan .heal
  let dropped ← (files.filter fun f => f.finish > from_).mapM (env.dropCards from_)
  return dropped.sum

/-- The disk after a step that is only logged when it fails. -/
def after {α : Type} (x : EStateM Fault (Store β) α) (disk : Store β) : Store β :=
  match x.run disk with
  | .ok _ disk => disk
  | .error _ disk => disk

def at_ (now : ℤ) : CardEnv β := { env with now }

def backoffCap : ℕ := max env.rollInterval.toNat CHANNEL_RESTART_BACKOFF_START

end CardEnv

/-- One start of a channel's loop: the clock at it, what the loop does to the disk and the error it
ends with, the clock at that, and whether the stop comes before the wait is over. -/
structure ChannelAttempt (β : Type) where
  start : ℤ
  run : Store β → Option String × Store β
  failed : ℤ
  stopped : Bool

structure Supervisor where
  firstErr : Option String := none
  consecutive : ℕ := 0
  backoff : ℕ := CHANNEL_RESTART_BACKOFF_START
  deriving DecidableEq, Repr

/-- A turn of the supervisor's loop returns, or waits for the next start. -/
inductive Turn where
  | returned (firstErr : Option String)
  | waited (next : Supervisor)
  deriving DecidableEq, Repr

namespace CardEnv

variable (env : CardEnv β)

def cleared (start : ℤ) (disk : Store β) : Store β :=
  after ((env.at_ start).wipeCardsFrom start) disk

/-- What a failure leaves: the third in a row, and every one after it, is shown on screen. -/
def carded (consecutive : ℕ) (failed : ℤ) (err : String) (disk : Store β) : Store β :=
  if CHANNEL_FAILURES_BEFORE_CARD ≤ consecutive then
    after ((env.at_ failed).coverAfterWritten err) disk
  else disk

def supervise (a : ChannelAttempt β) (sup : Supervisor) (disk : Store β) : Turn × Store β :=
  match a.run (env.cleared a.start disk) with
  | (none, disk) => (.returned sup.firstErr, disk)
  | (some err, disk) =>
    let consecutive := sup.consecutive + 1
    let firstErr := sup.firstErr.or (some err)
    let disk := env.carded consecutive a.failed err disk
    if a.stopped then (.returned firstErr, disk)
    else (.waited ⟨firstErr, consecutive, min (sup.backoff * 2) env.backoffCap⟩, disk)

end CardEnv

section Cards

variable {env : CardEnv β}

theorem isCard_makeChannelCard (i : ℕ) (reason : String) (start finish : ℤ) :
    isCard (buildPlayoutItem (env.makeChannelCard s!"{CARD_ID_PREFIX}-{i}" reason)
      start finish) := by
  have hid : (buildPlayoutItem (env.makeChannelCard s!"{CARD_ID_PREFIX}-{i}" reason)
      start finish).id = CARD_ID_PREFIX ++ "-" ++ toString i := rfl
  rw [isCard, hid, List.isPrefixOf_iff_prefix, String.toList_append, String.toList_append,
    List.append_assoc]
  exact List.prefix_append _ _

theorem cards_laid (reason : String) (span from_ : ℤ) :
    ∀ a ∈ (env.cards reason span).laid from_, isCard a := by
  intro a ha
  obtain ⟨e, he, rfl⟩ := List.mem_map.mp ha
  obtain ⟨-, -, -, dur, hdur, -⟩ := Sequential.mem_itemSpans he
  obtain ⟨i, -, heq⟩ := List.mem_map.mp hdur
  rw [← (Prod.mk.inj heq).1]
  exact isCard_makeChannelCard i reason e.2.1 e.2.2

theorem cards_pos (reason : String) (span : ℤ) : ∀ e ∈ env.cards reason span, 0 < e.2 := by
  intro e he
  obtain ⟨i, -, rfl⟩ := List.mem_map.mp he
  exact show 0 < CARD_SEGMENT by decide

theorem cards_walked (reason : String) (span : ℤ) : (env.cards reason span).walked =
    ((span + CARD_SEGMENT - 1) / CARD_SEGMENT).toNat * CARD_SEGMENT := by
  simp [Sequential.walked, CardEnv.cards, Function.comp_def]

/-- The cards reach past the span. -/
theorem cards_reach (reason : String) (span : ℤ) :
    span ≤ (env.cards reason span).walked := by
  rw [cards_walked]
  have hseg : (CARD_SEGMENT : ℤ) = 300000000000 := rfl
  rw [hseg]
  omega

/-- Cards are of whole seconds, and what they come to is exact. -/
theorem cards_total (reason : String) {span : ℤ} (h : span ≤ env.window) :
    (env.cards reason span).totalDuration = (env.cards reason span).walked := by
  refine Sequential.totalDuration_whole (fun e he => ?_) ?_
  · obtain ⟨i, -, rfl⟩ := List.mem_map.mp he
    exact Dvd.intro 300 rfl
  · have hwindow := env.window_lt
    have hwalked := @cards_walked _ env reason span
    have hseg : (CARD_SEGMENT : ℤ) = 300000000000 := rfl
    have hday : DAY = 86400000000000 := rfl
    have hnanos : Lib.F64.NANOS = 1000000000 := rfl
    rw [hseg] at hwalked
    unfold Sequential.walked at hwalked
    omega

end Cards

section Cover

variable {env : TickEnv β} {now end_ : ℤ} {all : List (PlayoutItem β)}

/-- Where no step fails the tick's chunks are the emission's. -/
theorem emitChunks_run (hplain : env.Untroubled) {n : ℕ} {rule : Sequential β} {anchor to_ : ℤ}
    {fuel : ℕ} {cursor : ℤ} {s : Store β} {written : List (ChunkFile β)} {folder : Folder β}
    (h : emitLoop env.os env.grid rule anchor to_ fuel cursor s.folder = .ok (written, folder)) :
    (env.emitChunks n rule anchor to_ fuel cursor).run s = .ok () { s with folder } := by
  induction fuel generalizing cursor s written with
  | zero =>
    obtain ⟨-, rfl⟩ := Prod.mk.inj (Except.ok.inj h)
    rfl
  | succ fuel ih =>
    rw [TickEnv.emitChunks_step]
    rw [emitLoop] at h
    by_cases hmore : cursor < to_
    · rw [if_pos hmore] at h ⊢
      dsimp only at h
      obtain ⟨stored, hread, h⟩ := Lib.bind_eq_ok.mp h
      rw [hread]
      dsimp only
      split_ifs at h ⊢ with hempty hfails
      · obtain ⟨-, rfl⟩ := Prod.mk.inj (Except.ok.inj h)
        rfl
      · exact absurd hfails (by rw [hplain]; decide)
      · obtain ⟨⟨written', folder'⟩, hrest, h⟩ := Lib.bind_eq_ok.mp h
        obtain ⟨-, rfl⟩ := Prod.mk.inj (Except.ok.inj h)
        exact ih hrest
    · rw [if_neg hmore] at h ⊢
      obtain ⟨-, rfl⟩ := Prod.mk.inj (Except.ok.inj h)
      rfl

/-- A folder's end is the schedule's, or `now` where there is none. -/
theorem Standing.reaches {folder : Folder β} (h : Standing env.grid now end_ all folder) (os : Os β)
    (hnow : now ≤ end_) : (highestFinish (scanOutputFolder os folder)).getD now = end_ := by
  by_cases hall : all = []
  · obtain ⟨start, hstart, hcovers⟩ := h.covers
    subst hall
    have hend : start = end_ := hcovers
    have hscan : scanOutputFolder os folder = [] :=
      List.eq_nil_iff_forall_not_mem.mpr fun f hf => by
        have := (mem_scanOutputFolder os).mp hf
        rw [h.folder_nil] at this
        exact List.not_mem_nil this
    rw [hscan]
    show now = end_
    omega
  · rw [h.highestFinish_some os hall hnow, Option.getD_some]

end Cover

/-- The cards from `from_` on come after everything else. -/
def CardsLast (from_ : ℤ) (all : List (PlayoutItem β)) : Prop :=
  ∃ real tail, all = real ++ tail ∧ (∀ a ∈ real, isCard a → a.start < from_) ∧ ∀ a ∈ tail, isCard a

section Step

variable {env : CardEnv β} {now end_ : ℤ} {all : List (PlayoutItem β)} {disk : Store β}

/-- A chunk rewritten to the part of its items that ends inside it is named after that part. -/
theorem rewriteChunk_run (hremoves : ∀ f, env.os.removes f) (hplain : env.Untroubled)
    {laid : ℤ → List (PlayoutItem β)} (h : Stored env.grid laid disk.folder) {f : ChunkFile β}
    (hf : f ∈ disk.folder) {p : PlayoutItem β → Bool}
    (hinside : ∀ a ∈ (chunkItems env.grid (laid f.start) f.start).filter p,
      a.finish ≤ env.grid.next f.start) :
    ∃ folder, (env.rewriteChunk f
        ((chunkItems env.grid (laid f.start) f.start).filter p)).run disk =
          .ok () { disk with folder } ∧
      Stored env.grid (fun c => if c = f.start then (laid c).filter p else laid c) folder := by
  obtain ⟨c, hc, hof⟩ := (h.file f).mp hf
  obtain ⟨rfl, -, -⟩ := fileOf_start hof
  set left := (chunkItems env.grid (laid f.start) f.start).filter p with hleft
  have hother : ∀ d, d ≠ f.start → (fun d => if d = f.start then (laid d).filter p else laid d) d =
      laid d := fun d hd => if_neg hd
  have hnow : chunkItems env.grid ((laid f.start).filter p) f.start = left :=
    chunkItems_filter _ _ _ _
  by_cases hnone : left = []
  · refine ⟨disk.folder.filter fun g => g.name ≠ f.name, ?_, ?_⟩
    · unfold CardEnv.rewriteChunk
      rw [hnone]
      exact removeFile_run hremoves f disk
    · refine h.replace _ hc hother (h.nodup.filter _) fun g => ?_
      rw [if_pos rfl, fileOf, hnow, if_pos hnone, List.mem_filter, decide_eq_true_iff]
      constructor
      · intro hg
        exact Or.inr ⟨hg.1, (h.name_ne_iff hf hg.1).mp hg.2⟩
      · intro hg
        rcases hg with hg | hg
        · cases hg
        · exact ⟨hg.1, (h.name_ne_iff hf hg.1).mpr hg.2⟩
  · have hlast := List.getLast?_eq_some_getLast hnone
    have hnew : chunkFile f.start (env.grid.next f.start) left =
        ⟨f.start, (left.getLast hnone).finish, some left⟩ :=
      chunkFile_of_lt hnone (hinside _ (List.getLast_mem hnone))
    set new : ChunkFile β := ⟨f.start, (left.getLast hnone).finish, some left⟩ with hnewdef
    set folder := (writeFile disk.folder new).filter fun g =>
      g.name = new.name ∨ g.name ≠ f.name with hfolder
    refine ⟨folder, ?_, ?_⟩
    · unfold CardEnv.rewriteChunk
      rw [hlast]
      dsimp only
      rw [← hnewdef, untroubled_attempt hplain]
      by_cases hname : new.name = f.name
      · have hall : folder = writeFile disk.folder new := List.filter_eq_self.mpr fun g _ => by
          rw [hname]
          exact decide_eq_true (em _)
        rw [if_neg (not_not.mpr hname), hall]
        rfl
      · have hold : folder = (writeFile disk.folder new).filter fun g =>
            !(g.name = f.name && env.os.removes f) := by
          refine List.filter_congr fun g _ => ?_
          rw [hremoves, Bool.and_true, ← decide_not, decide_eq_decide]
          exact or_iff_right_of_imp fun hsame => by rwa [hsame]
        rw [if_pos hname, hold]
        rfl
    · refine h.replace _ hc hother ((writeFile_nodup h.nodup new).filter _) fun g => ?_
      rw [if_pos rfl, fileOf, hnow, if_neg hnone, hnew, Option.some.injEq, List.mem_filter,
        decide_eq_true_iff, writeFile, List.mem_append, List.mem_filter, List.mem_singleton,
        decide_eq_true_iff]
      constructor
      · intro hg
        rcases hg with ⟨hg | hg, hname⟩
        · exact Or.inr ⟨hg.1, (h.name_ne_iff hf hg.1).mp (hname.resolve_left hg.2)⟩
        · exact Or.inl hg.symm
      · intro hg
        rcases hg with hg | hg
        · rw [← hg]
          exact ⟨Or.inr rfl, Or.inl rfl⟩
        · exact ⟨Or.inl ⟨hg.1, fun hname => hg.2 (congrArg Prod.fst hname)⟩,
            Or.inr ((h.name_ne_iff hf hg.1).mpr hg.2)⟩

/-- A chunk loses its cards from an instant on, where these are its last items. -/
theorem dropCards_run (hremoves : ∀ f, env.os.removes f) (hplain : env.Untroubled)
    {laid : ℤ → List (PlayoutItem β)} {from_ : ℤ} (h : Stored env.grid laid disk.folder)
    (hlast : ∀ c, ∀ a ∈ CardEnv.kept from_ (laid c), ∀ b ∈ laid c, isCard b → from_ ≤ b.start →
      a.finish ≤ b.start)
    {f : ChunkFile β} (hf : f ∈ disk.folder) :
    ∃ n folder, (env.dropCards from_ f).run disk = .ok n { disk with folder } ∧
      Stored env.grid (fun c => if c = f.start then CardEnv.kept from_ (laid c) else laid c)
        folder := by
  obtain ⟨c, hc, hof⟩ := (h.file f).mp hf
  obtain ⟨rfl, hitems, -⟩ := fileOf_start hof
  have hread : f.read = .ok (chunkItems env.grid (laid f.start) f.start) := by
    rw [ChunkFile.read, hitems]
  set items := chunkItems env.grid (laid f.start) f.start with hitemsdef
  by_cases hshort : (CardEnv.kept from_ items).length = items.length
  · have hall : CardEnv.kept from_ items = items := List.filter_sublist.eq_of_length hshort
    refine ⟨0, disk.folder, ?_, h.congr fun d _ => ?_⟩
    · unfold CardEnv.dropCards
      rw [hread]
      dsimp only [TickEnv.lift]
      rw [EStateM.run_bind, EStateM.run_pure]
      dsimp only
      rw [if_pos hshort]
      rfl
    · split_ifs with hd
      · subst hd
        rw [fileOf, fileOf, CardEnv.kept, chunkItems_filter]
        exact congrArg (fun l => if l = [] then none else some (chunkFile f.start _ l)) hall
      · rfl
  · -- An item that goes opens inside the chunk, so what is left of it ends inside.
    obtain ⟨b, hb, hcard⟩ : ∃ b ∈ items, isCard b ∧ from_ ≤ b.start := by
      by_contra hnone
      refine hshort (congrArg List.length (List.filter_eq_self.mpr fun b hb => ?_))
      rw [Bool.not_eq_true', Bool.and_eq_false_iff, decide_eq_false_iff_not]
      by_contra hcard
      rw [not_or, Bool.not_eq_false, not_not] at hcard
      exact hnone ⟨b, hb, hcard⟩
    obtain ⟨hb, hopens, -⟩ := mem_chunkItems.mp hb
    have hinside : ∀ a ∈ CardEnv.kept from_ items, a.finish ≤ env.grid.next f.start := by
      intro a ha
      obtain ⟨hin, hkept⟩ := List.mem_filter.mp ha
      have hbefore := hlast f.start a
        (List.mem_filter.mpr ⟨(mem_chunkItems.mp hin).1, hkept⟩) b hb hcard.1 hcard.2
      omega
    obtain ⟨folder, hrun, hstored⟩ := rewriteChunk_run hremoves hplain h hf hinside
    refine ⟨items.length - (CardEnv.kept from_ items).length, folder, ?_, hstored⟩
    unfold CardEnv.dropCards
    rw [hread]
    dsimp only [TickEnv.lift]
    rw [EStateM.run_bind, EStateM.run_pure]
    dsimp only
    rw [if_neg hshort, EStateM.run_bind]
    have hrun' : (env.rewriteChunk f (CardEnv.kept from_ items)).run disk =
        .ok () { disk with folder } := hrun
    rw [hrun']
    rfl

theorem dropAll_run (hremoves : ∀ f, env.os.removes f) (hplain : env.Untroubled)
    {laid : ℤ → List (PlayoutItem β)} {from_ : ℤ} (h : Stored env.grid laid disk.folder)
    (hlast : ∀ c, ∀ a ∈ CardEnv.kept from_ (laid c), ∀ b ∈ laid c, isCard b → from_ ≤ b.start →
      a.finish ≤ b.start)
    (files : List (ChunkFile β)) (hfiles : ∀ f ∈ files, f ∈ disk.folder)
    (hdistinct : (files.map (·.start)).Nodup) :
    ∃ counts folder, (files.mapM (env.dropCards from_)).run disk = .ok counts { disk with folder } ∧
      Stored env.grid
        (fun c => if c ∈ files.map (·.start) then CardEnv.kept from_ (laid c) else laid c)
        folder := by
  induction files generalizing laid disk with
  | nil => exact ⟨[], disk.folder, rfl, h⟩
  | cons f files ih =>
    obtain ⟨hnot, hrest⟩ := List.nodup_cons.mp hdistinct
    obtain ⟨n, folder, hrun, hstored⟩ :=
      dropCards_run hremoves hplain h hlast (hfiles f List.mem_cons_self)
    set laid' : ℤ → List (PlayoutItem β) := fun c =>
      if c = f.start then CardEnv.kept from_ (laid c) else laid c with hlaid'
    have hsub : ∀ c, ∀ a ∈ laid' c, a ∈ laid c := by
      intro c a ha
      rw [hlaid'] at ha
      dsimp only at ha
      split_ifs at ha
      · exact (List.mem_filter.mp ha).1
      · exact ha
    have hkeep : ∀ g ∈ files, g ∈ folder := by
      intro g hg
      obtain ⟨d, hd, hdg⟩ := (h.file g).mp (hfiles g (List.mem_cons_of_mem _ hg))
      have hdf : d ≠ f.start := by
        rw [← (fileOf_start hdg).1]
        intro heq
        exact hnot (List.mem_map.mpr ⟨g, hg, heq⟩)
      have hsame : laid' d = laid d := if_neg hdf
      exact (hstored.file g).mpr ⟨d, hd, by rw [hsame, hdg]⟩
    obtain ⟨counts, folder', hrun', hstored'⟩ := @ih { disk with folder } laid' hstored
      (fun c a ha b hb => hlast c a
        (List.mem_filter.mpr ⟨hsub c a (List.mem_filter.mp ha).1, (List.mem_filter.mp ha).2⟩) b
        (hsub c b hb)) hkeep hrest
    refine ⟨n :: counts, folder', ?_, hstored'.congr fun c _ => ?_⟩
    · rw [List.mapM_cons, EStateM.run_bind, hrun]
      dsimp only
      rw [EStateM.run_bind, hrun']
      rfl
    · congr 1
      by_cases hcf : c = f.start
      · have hout : c ∉ files.map (·.start) := by
          rw [hcf]
          exact hnot
        have hin : c ∈ (f :: files).map (·.start) :=
          List.mem_map.mpr ⟨f, List.mem_cons_self, hcf.symm⟩
        rw [if_neg hout, if_pos hin]
        exact (if_pos hcf).symm
      · have hsame : laid' c = laid c := if_neg hcf
        have hiff : c ∈ (f :: files).map (·.start) ↔ c ∈ files.map (·.start) := by
          rw [List.map_cons, List.mem_cons]
          exact or_iff_right hcf
        rw [hsame]
        simp only [hiff]

/-- What begins before an instant is the beginning of a chain. -/
theorem Covers.started {s f t : ℤ} {l : List (PlayoutItem β)} (h : Covers s f l)
    (hpos : ∀ a ∈ l, a.start < a.finish) : l.filter (fun a => a.start < t) <+: l := by
  induction l generalizing s with
  | nil => exact List.nil_prefix
  | cons a l ih =>
    obtain ⟨rfl, hle, hrest⟩ := h
    by_cases hstart : a.start < t
    · rw [List.filter_cons_of_pos (by simpa using hstart), List.prefix_cons_inj]
      exact ih hrest fun b hb => hpos b (List.mem_cons_of_mem _ hb)
    · have hnone : (a :: l).filter (fun a => a.start < t) = [] := by
        refine List.filter_eq_nil_iff.mpr fun b hb => ?_
        rw [decide_eq_true_iff, not_lt]
        rcases List.mem_cons.mp hb with rfl | hb
        · exact not_lt.mp hstart
        · exact (not_lt.mp hstart).trans (hle.trans (hrest.mem hb).1)
      rw [hnone]
      exact List.nil_prefix

/-- Without its cards from an instant on, a schedule whose cards come last is its beginning. -/
theorem CardsLast.kept_prefix {from_ s f : ℤ} (h : CardsLast from_ all) (hcovers : Covers s f all)
    (hpos : ∀ a ∈ all, a.start < a.finish) : CardEnv.kept from_ all <+: all := by
  obtain ⟨real, tail, rfl, hreal, htail⟩ := h
  obtain ⟨mid, -, hrest⟩ := covers_append.mp hcovers
  have hkept : CardEnv.kept from_ real = real := List.filter_eq_self.mpr fun a ha => by
    have := hreal a ha
    rw [Bool.not_eq_true', Bool.and_eq_false_iff, decide_eq_false_iff_not, not_le]
    by_cases hcard : isCard a
    · exact Or.inr (this hcard)
    · exact Or.inl (Bool.eq_false_iff.mpr hcard)
  have hcut : CardEnv.kept from_ tail = tail.filter fun a => a.start < from_ := by
    refine List.filter_congr fun a ha => ?_
    rw [htail a ha, Bool.true_and, ← decide_not, decide_eq_decide, not_le]
  have hsplit : CardEnv.kept from_ (real ++ tail) =
      real ++ tail.filter fun a => a.start < from_ := by
    rw [← hcut]
    exact (List.filter_append ..).trans (congrArg (· ++ _) hkept)
  rw [hsplit, List.prefix_append_right_inj]
  exact hrest.started fun a ha => hpos a (List.mem_append_right _ ha)

/-- What such a schedule loses are the cards at its end. -/
theorem CardsLast.kept_append {from_ s f : ℤ} (h : CardsLast from_ all) (hcovers : Covers s f all)
    (hpos : ∀ a ∈ all, a.start < a.finish) :
    ∃ rest, CardEnv.kept from_ all ++ rest = all ∧ ∀ b ∈ rest, isCard b ∧ from_ ≤ b.start := by
  obtain ⟨rest, hsplit⟩ := h.kept_prefix hcovers hpos
  refine ⟨rest, hsplit, ?_⟩
  have hboth : CardEnv.kept from_ (CardEnv.kept from_ all) ++ CardEnv.kept from_ rest =
      CardEnv.kept from_ all := by
    conv_rhs => rw [← hsplit]
    exact (List.filter_append ..).symm
  rw [CardEnv.kept, CardEnv.kept, List.filter_filter] at hboth
  simp only [Bool.and_self] at hboth
  have hnone := List.append_right_eq_self.mp hboth
  intro b hb
  have := List.filter_eq_nil_iff.mp hnone b hb
  rw [Bool.not_eq_true', Bool.not_eq_false, Bool.and_eq_true, decide_eq_true_iff] at this
  exact this

theorem kept_before {from_ : ℤ} {rest : List (PlayoutItem β)}
    (hsplit : CardEnv.kept from_ all ++ rest = all)
    (hordered : all.Pairwise fun a b => a.finish ≤ b.start) :
    ∀ a ∈ CardEnv.kept from_ all, ∀ b ∈ all, isCard b → from_ ≤ b.start → a.finish ≤ b.start := by
  intro a ha b hb hcard hlate
  rw [← hsplit] at hb hordered
  have hgoes : b ∈ rest := (List.mem_append.mp hb).resolve_left fun hin => by
    have := (List.mem_filter.mp hin).2
    rw [hcard, decide_eq_true hlate] at this
    cases this
  exact (List.pairwise_append.mp hordered).2.2 a ha b hgoes

/-- What is laid, with nothing at the instants that open no chunk. -/
theorem Standing.laid_at (h : Standing env.grid now end_ all disk.folder) :
    ∃ laid, Stored env.grid laid disk.folder ∧ (∀ c, laid c = all ∨ laid c = []) ∧
      ∀ c, env.grid.boundary c = c → laid c = all ∨ laid c = [] ∧ env.grid.next c < now := by
  classical
  obtain ⟨laid, hstored, hall⟩ := h.stored
  have hsame : ∀ c, env.grid.boundary c = c →
      (if env.grid.boundary c = c then laid c else []) = laid c := fun c hc => if_pos hc
  refine ⟨fun c => if env.grid.boundary c = c then laid c else [],
    hstored.congr fun c hc => by rw [hsame c hc], fun c => ?_, fun c hc => ?_⟩
  · dsimp only
    split_ifs with hc
    · exact (hall c hc).imp_right And.left
    · exact Or.inr rfl
  · dsimp only
    rw [hsame c hc]
    exact hall c hc

/-- A file that is over holds nothing that opens later. -/
theorem Stored.starts_before {laid : ℤ → List (PlayoutItem β)} {c : ℤ}
    (h : Stored env.grid laid disk.folder) (hc : env.grid.boundary c = c)
    (hapart : Lib.Apart PlayoutItem.start PlayoutItem.finish (laid c))
    (hpos : ∀ a ∈ laid c, a.start < a.finish)
    (hover : ∀ f ∈ disk.folder, f.start = c → f.finish ≤ now) :
    ∀ b ∈ chunkItems env.grid (laid c) c, b.start < now := by
  intro b hb
  have hne := List.ne_nil_of_mem hb
  have hsub : (chunkItems env.grid (laid c) c).Sublist (laid c) := List.filter_sublist
  have hname := List.getLast?_eq_some_getLast hne
  have hmost := (max_finish_of_apart (hapart.sublist hsub)
    (fun a ha => hpos a (hsub.subset ha)) hname).1 b hb
  have hstarts := hpos b (hsub.subset hb)
  have hopens := (mem_chunkItems.mp hb).2.1
  have hended := hover _ ((h.file
    (chunkFile c (env.grid.next c) (chunkItems env.grid (laid c) c))).mpr
      ⟨c, hc, by rw [fileOf, if_neg hne]⟩) rfl
  rw [chunkFile_finish hname] at hended
  omega

/-- The cards from `now` on are taken down, and nothing else. -/
theorem wipeCardsFrom_run (h : Standing env.grid now end_ all disk.folder)
    (hremoves : ∀ f, env.os.removes f) (hplain : env.Untroubled) (hnow : now ≤ end_)
    (hcards : CardsLast now all) : ∃ n folder, (env.wipeCardsFrom now).run disk =
        .ok n { disk with folder } ∧
      ∃ end_', now ≤ end_' ∧ Standing env.grid now end_' (CardEnv.kept now all) folder := by
  obtain ⟨start, hstart, hcovers⟩ := h.covers
  obtain ⟨rest, hsplit, hrest⟩ := hcards.kept_append hcovers h.positive
  have hapart := hcovers.apart h.positive
  obtain ⟨laid, hstored, hcases, hall⟩ := h.laid_at
  have hlast : ∀ c, ∀ a ∈ CardEnv.kept now (laid c), ∀ b ∈ laid c, isCard b → now ≤ b.start →
      a.finish ≤ b.start := by
    intro c
    rcases hcases c with heq | hnil
    · rw [heq]
      exact kept_before hsplit hapart.ordered
    · rw [hnil]
      exact fun a _ b hb => absurd hb List.not_mem_nil
  set files := (scanOutputFolder env.os disk.folder).filter fun f => f.finish > now with hfiles
  have hmem : ∀ f, f ∈ files ↔ f ∈ disk.folder ∧ now < f.finish := by
    intro f
    rw [hfiles, List.mem_filter, mem_scanOutputFolder, decide_eq_true_iff]
  have hdistinct : (files.map (·.start)).Nodup := by
    have hnodup : files.Nodup := ((List.perm_insertionSort _ _).nodup_iff.mpr
      ((env.os.perm disk.folder).nodup_iff.mpr hstored.nodup)).filter _
    exact (List.nodup_map_iff_inj_on hnodup).mpr fun f hf g hg hstart =>
      hstored.unique ((hmem f).mp hf).1 ((hmem g).mp hg).1 hstart
  obtain ⟨counts, folder, hrun, hleft⟩ := dropAll_run hremoves hplain hstored hlast files
    (fun f hf => ((hmem f).mp hf).1) hdistinct
  have hover : ∀ c, env.grid.boundary c = c → c ∉ files.map (·.start) →
      ∀ b ∈ chunkItems env.grid (laid c) c, b.start < now := by
    intro c hc hnot
    refine hstored.starts_before hc ?_ ?_ fun f hf hstart => ?_
    · rcases hcases c with heq | hnil
      · rwa [heq]
      · rw [hnil]
        exact hapart.sublist (List.nil_sublist _)
    · rcases hcases c with heq | hnil
      · rw [heq]
        exact h.positive
      · simp [hnil]
    · exact not_lt.mp fun hlate => hnot (List.mem_map.mpr ⟨f, (hmem f).mpr ⟨hf, hlate⟩, hstart⟩)
  refine ⟨counts.sum, folder, ?_, ?_⟩
  · rw [CardEnv.wipeCardsFrom, EStateM.run_bind, scan_run hplain]
    dsimp only
    rw [← hfiles, EStateM.run_bind, hrun]
    rfl
  · obtain ⟨mid, hkept, hgone⟩ := covers_append.mp (hsplit.symm ▸ hcovers)
    refine ⟨mid, ?_, ⟨start, hstart, hkept⟩,
      fun a ha => h.positive a (List.mem_filter.mp ha).1, fun c => CardEnv.kept now (laid c),
      hleft.congr fun c hc => ?_, fun c hc => ?_⟩
    · cases rest with
      | nil => exact hnow.trans_eq hgone.symm
      | cons b rest => exact (hrest b List.mem_cons_self).2.trans_eq hgone.1
    · split_ifs with hin
      · rfl
      · rw [fileOf, fileOf, CardEnv.kept, chunkItems_filter]
        have hall' : (chunkItems env.grid (laid c) c).filter
            (fun i => !(isCard i && now ≤ i.start)) = chunkItems env.grid (laid c) c := by
          refine List.filter_eq_self.mpr fun b hb => ?_
          have := hover c hc hin b hb
          rw [Bool.not_eq_true', Bool.and_eq_false_iff, decide_eq_false_iff_not]
          exact Or.inr (not_le.mpr this)
        rw [hall']
    · dsimp only
      rcases hall c hc with heq | ⟨hnil, hover⟩
      · exact Or.inl (by rw [heq])
      · exact Or.inr ⟨by rw [hnil]; rfl, hover⟩

/-- The cards are laid after what is written, and reach the end of the window. -/
theorem coverAfterWritten_run (h : Standing env.grid env.now end_ all disk.folder)
    (hremoves : ∀ f, env.os.removes f) (hplain : env.Untroubled) (hnow : env.now ≤ end_)
    (reason : String) : ∃ from_ folder, (env.coverAfterWritten reason).run disk =
        .ok from_ { disk with folder } ∧ ∃ tail end_', (∀ a ∈ tail, isCard a) ∧
      end_ ≤ end_' ∧ env.target ≤ end_' ∧
      Standing env.grid env.now end_' (all ++ tail) folder := by
  have hreach := h.reaches env.os hnow
  have hfrom : max ((highestFinish (scanOutputFolder env.os disk.folder)).getD env.now) env.now =
      end_ := by rw [hreach, max_eq_left hnow]
  by_cases hdone : end_ ≥ env.target
  · refine ⟨none, disk.folder, ?_, [], end_, by simp, le_rfl, hdone, by rwa [List.append_nil]⟩
    rw [CardEnv.coverAfterWritten, EStateM.run_bind, scan_run hplain]
    dsimp only
    rw [hfrom, if_pos hdone]
    rfl
  · have hwindow : env.target - end_ ≤ env.window := by
      have htarget : env.target = env.now + env.window := rfl
      omega
    have hpos := @cards_pos _ env reason (env.target - end_)
    have hspan := @cards_reach _ env reason (env.target - end_)
    have htotal := @cards_total _ env reason _ hwindow
    have hlaid := @cards_laid _ env reason (env.target - end_) end_
    generalize hrule : env.cards reason (env.target - end_) = rule at hpos hspan htotal hlaid
    obtain ⟨written, folder, hemit, hstands⟩ := h.emits hnow hremoves hpos le_rfl
    refine ⟨some end_, folder, ?_, _, _, hlaid, ?_, ?_, hstands⟩
    · rw [CardEnv.coverAfterWritten, EStateM.run_bind, scan_run hplain]
      dsimp only
      rw [hfrom, if_neg hdone, hrule, htotal, EStateM.run_bind, emitChunks_run hplain hemit]
      rfl
    · omega
    · omega

end Step

/-- A start that leaves what it finds on disk one schedule: what has begun stays, and nothing it
lays is a card. -/
def ChannelAttempt.Lays (grid : ChunkGrid) (a : ChannelAttempt β) : Prop :=
  ∀ (disk : Store β) (all : List (PlayoutItem β)) (end_ : ℤ), a.start ≤ end_ →
    Standing grid a.start end_ all disk.folder →
    ∃ all' end_', a.start ≤ end_' ∧ Standing grid a.start end_' all' (a.run disk).2.folder ∧
      all.filter (fun b => b.start < a.start) <+: all' ∧ ∀ b ∈ all', isCard b → b ∈ all

/-- The turns of a supervisor up to `last`, after each of which it waits: the errors its starts
ended with and the waits, no step of its own failing. The clock never goes back, and what is on disk
outlasts each wait and each start. -/
inductive Supervised (env : CardEnv β) (lo : ℤ) (disk₀ : Store β) :
    ℤ → List String → List ℕ → Supervisor → Store β → Prop
  | start : Supervised env lo disk₀ lo [] [] {} disk₀
  | failed {last : ℤ} {errs : List String} {waits : List ℕ} {sup next : Supervisor}
      {disk disk' : Store β} {a : ChannelAttempt β} {err : String}
      (h : Supervised env lo disk₀ last errs waits sup disk) (hclock : last ≤ a.start)
      (hahead : a.start ≤ (highestFinish (scanOutputFolder env.os disk.folder)).getD last)
      (hlays : a.Lays env.grid) (hfailed : a.start ≤ a.failed)
      (herr : (a.run (env.cleared a.start disk)).1 = some err)
      (hlasts : a.failed ≤ (highestFinish (scanOutputFolder env.os
        (a.run (env.cleared a.start disk)).2.folder)).getD a.start)
      (hturn : env.supervise a sup disk = (.waited next, disk')) :
      Supervised env lo disk₀ a.failed (errs ++ [err]) (waits ++ [sup.backoff]) next disk'

def hourlyCards : CardEnv Unit where
  toTickEnv := hourlyAt 0 fun _ => false
  cardParams reason := reason
  cardRest _ := ()
  window_lt := by decide

def failing (t : ℤ) : ChannelAttempt Unit := ⟨t, fun disk => (some "no catalog", disk), t, false⟩

theorem failing_lays (t : ℤ) (grid : ChunkGrid) : (failing t).Lays grid := by
  intro disk all end_ hend hstands
  obtain ⟨start, -, hcovers⟩ := hstands.covers
  exact ⟨all, end_, hend, hstands, hcovers.started hstands.positive, fun b hb _ => hb⟩

theorem hourlyFirst_cards : ∃ rule, Scheduled sixHours 0 (HOUR / 2) rule hourlyFirst ∧
    CardsLast (HOUR / 2) (Sequential.laid rule 0) := by
  obtain ⟨rule, hfirst⟩ := hourlyFirst_scheduled
  refine ⟨rule, hfirst.later (plainOs Unit) (by decide) (by decide +kernel), _, [],
    (List.append_nil _).symm, fun a ha hcard => ?_, by simp⟩
  have hstored : ∀ f ∈ hourlyFirst.1.folder, ∀ b ∈ f.items.getD [], isCard b = false := by
    decide +kernel
  have hstart := ((Sequential.laid_covers rule 0).mem ha).1
  have hpos := hfirst.standing.positive a ha
  have hbehind := sixHours.boundary_le a.start
  have hahead := sixHours.lt_next a.start
  have hin := mem_chunkItems.mpr ⟨ha, hahead, hbehind.trans_lt hpos⟩
  have hfile := hfirst.standing.held (sixHours.boundary_boundary a.start) (by omega)
    (List.ne_nil_of_mem hin)
  exact absurd hcard (Bool.eq_false_iff.mp (hstored _ hfile a hin))

/-- Half an hour into its first clip the loop dies, and twice more as it is started again. -/
theorem hourly_fails : ∃ waits sup disk, Supervised hourlyCards (HOUR / 2) hourlyFirst.1
    (HOUR / 2 + 90000000000) ["no catalog", "no catalog", "no catalog"] waits sup disk ∧
    HOUR / 2 + 210000000000 ≤
      (highestFinish (scanOutputFolder (plainOs Unit) disk.folder)).getD
        (HOUR / 2 + 90000000000) := by
  have hone : Supervised hourlyCards (HOUR / 2) hourlyFirst.1 _ _ _ _ _ :=
    .failed (a := failing (HOUR / 2)) .start le_rfl (by decide +kernel) (failing_lays _ _) le_rfl
      rfl (by decide +kernel) rfl
  have htwo : Supervised hourlyCards (HOUR / 2) hourlyFirst.1 _ _ _ _ _ :=
    .failed (a := failing (HOUR / 2 + 30000000000)) hone (by decide) (by decide +kernel)
      (failing_lays _ _) le_rfl rfl (by decide +kernel) rfl
  have hthree : Supervised hourlyCards (HOUR / 2) hourlyFirst.1 _ _ _ _ _ :=
    .failed (a := failing (HOUR / 2 + 90000000000)) htwo (by decide) (by decide +kernel)
      (failing_lays _ _) le_rfl rfl (by decide +kernel) rfl
  exact ⟨_, _, _, hthree, by decide +kernel⟩

section Turns

variable {env : CardEnv β} {lo last end_ : ℤ} {all all₀ : List (PlayoutItem β)}
  {disk disk' disk₀ : Store β} {errs : List String} {waits : List ℕ} {sup next : Supervisor}

theorem untroubled_at (hplain : env.Untroubled) (now : ℤ) : (env.at_ now).Untroubled := hplain

theorem CardsLast.later {now now' : ℤ} (h : CardsLast now all) (hle : now ≤ now') :
    CardsLast now' all := by
  obtain ⟨real, tail, rfl, hreal, htail⟩ := h
  exact ⟨real, tail, rfl, fun a ha hcard => (hreal a ha hcard).trans_le hle, htail⟩

theorem mem_kept_card {from_ : ℤ} {b : PlayoutItem β} (h : b ∈ CardEnv.kept from_ all)
    (hcard : isCard b) : b ∈ all ∧ b.start < from_ := by
  obtain ⟨hin, hkept⟩ := List.mem_filter.mp h
  rw [hcard, Bool.true_and, Bool.not_eq_true', decide_eq_false_iff_not, not_le] at hkept
  exact ⟨hin, hkept⟩

/-- What has begun is no card to come. -/
theorem kept_started (from_ : ℤ) (all : List (PlayoutItem β)) :
    (CardEnv.kept from_ all).filter (fun b => b.start < from_) =
      all.filter fun b => b.start < from_ := by
  rw [CardEnv.kept, List.filter_filter]
  refine List.filter_congr fun b _ => ?_
  by_cases hstart : b.start < from_
  · simp [hstart, not_le.mpr hstart]
  · simp [hstart]

/-- What a start finds on disk: the schedule without the cards from then on. -/
theorem cleared_standing {start : ℤ} (h : Standing env.grid start end_ all disk.folder)
    (hremoves : ∀ f, env.os.removes f) (hplain : env.Untroubled) (hahead : start ≤ end_)
    (hcards : CardsLast start all) : ∃ end_', start ≤ end_' ∧
      Standing env.grid start end_' (CardEnv.kept start all) (env.cleared start disk).folder := by
  obtain ⟨n, folder, hrun, end_', hend, hstands⟩ := @wipeCardsFrom_run _ (env.at_ start) _ _ _ _ h
    hremoves (untroubled_at hplain start) hahead hcards
  refine ⟨end_', hend, ?_⟩
  rw [CardEnv.cleared, CardEnv.after, hrun]
  exact hstands

/-- What a failure leaves on disk: cards after everything else, from the third one on. -/
theorem carded_standing {failed : ℤ} (h : Standing env.grid failed end_ all disk.folder)
    (hremoves : ∀ f, env.os.removes f) (hplain : env.Untroubled) (hlasts : failed ≤ end_)
    (consecutive : ℕ) (err : String) : ∃ tail end_', (∀ a ∈ tail, isCard a) ∧
      (consecutive < CHANNEL_FAILURES_BEFORE_CARD → tail = []) ∧
      (CHANNEL_FAILURES_BEFORE_CARD ≤ consecutive → failed + env.window ≤ end_') ∧
      failed ≤ end_' ∧
      Standing env.grid failed end_' (all ++ tail)
        (env.carded consecutive failed err disk).folder := by
  unfold CardEnv.carded
  split_ifs with hmany
  · obtain ⟨from_, folder, hrun, tail, end_', htail, hmore, hreach, hstands⟩ :=
      @coverAfterWritten_run _ (env.at_ failed) _ _ _ h hremoves (untroubled_at hplain failed)
        hlasts err
    refine ⟨tail, end_', htail, fun hfew => absurd hmany (not_le.mpr hfew), fun _ => hreach,
      hlasts.trans hmore, ?_⟩
    rw [CardEnv.after, hrun]
    exact hstands
  · exact ⟨[], end_, by simp, fun _ => rfl, fun h => absurd h hmany, hlasts, by
      rwa [List.append_nil]⟩

/-- What a turn that waits does. -/
theorem supervise_waited {a : ChannelAttempt β} {err : String}
    (herr : (a.run (env.cleared a.start disk)).1 = some err)
    (hturn : env.supervise a sup disk = (.waited next, disk')) :
    disk' = env.carded (sup.consecutive + 1) a.failed err
        (a.run (env.cleared a.start disk)).2 ∧
      next = ⟨sup.firstErr.or (some err), sup.consecutive + 1,
        min (sup.backoff * 2) env.backoffCap⟩ := by
  unfold CardEnv.supervise at hturn
  generalize a.run (env.cleared a.start disk) = ended at herr hturn ⊢
  obtain ⟨out, left⟩ := ended
  obtain rfl : out = some err := herr
  dsimp only at hturn ⊢
  split_ifs at hturn
  · cases (Prod.mk.inj hturn).1
  · obtain ⟨hnext, hdisk⟩ := Prod.mk.inj hturn
    exact ⟨hdisk.symm, (Turn.waited.inj hnext).symm⟩

/-- The supervisor counts its failures, keeps the first, and doubles its waits up to the cap. -/
theorem Supervised.counts (h : Supervised env lo disk₀ last errs waits sup disk) :
    sup = ⟨errs.head?, errs.length,
        min (CHANNEL_RESTART_BACKOFF_START * 2 ^ errs.length) env.backoffCap⟩ ∧
      waits = (List.range errs.length).map fun k =>
        min (CHANNEL_RESTART_BACKOFF_START * 2 ^ k) env.backoffCap := by
  induction h with
  | start =>
    have hcap : CHANNEL_RESTART_BACKOFF_START ≤ env.backoffCap := le_max_right _ _
    refine ⟨?_, rfl⟩
    rw [List.length_nil, pow_zero, mul_one, min_eq_left hcap]
    rfl
  | @failed last errs waits sup next disk disk' a err _ _ _ _ _ herr _ hturn ih =>
    obtain ⟨rfl, rfl⟩ := ih
    obtain ⟨-, rfl⟩ := supervise_waited herr hturn
    rw [List.length_append, List.length_singleton]
    constructor
    · rw [Supervisor.mk.injEq]
      refine ⟨?_, rfl, ?_⟩
      · cases errs <;> rfl
      · dsimp only
        rw [pow_succ, ← mul_assoc]
        omega
    · rw [List.range_succ, List.map_append]
      rfl

/-- Of what is on disk after the turns, what had begun at first is the beginning, and the cards to
come are the end. -/
theorem Supervised.stands (h : Supervised env lo disk₀ last errs waits sup disk)
    (hremoves : ∀ f, env.os.removes f) (hplain : env.Untroubled) (hlo : lo ≤ end_)
    (hstands : Standing env.grid lo end_ all₀ disk₀.folder) (hcards : CardsLast lo all₀) :
    ∃ all end_', last ≤ end_' ∧ Standing env.grid last end_' all disk.folder ∧
      CardsLast last all ∧ lo ≤ last ∧ all₀.filter (fun b => b.start < lo) <+: all ∧
      (errs.length < CHANNEL_FAILURES_BEFORE_CARD → ∀ b ∈ all, isCard b → b ∈ all₀) ∧
      (CHANNEL_FAILURES_BEFORE_CARD ≤ errs.length → last + env.window ≤ end_') := by
  induction h with
  | start =>
    obtain ⟨start, -, hcovers⟩ := hstands.covers
    exact ⟨all₀, end_, hlo, hstands, hcards, le_rfl, hcovers.started hstands.positive,
      fun _ b hb _ => hb, fun h => absurd h (by decide)⟩
  | @failed last errs waits sup next disk disk' a err h hclock hahead hlays hfailed herr hlasts
      hturn ih =>
    obtain ⟨all, end₁, hend₁, hstands₁, hcards₁, hlo', hbegun, hfew, -⟩ := ih
    rw [hstands₁.reaches env.os hend₁] at hahead
    obtain ⟨end₂, hend₂, hcleared⟩ :=
      cleared_standing (hstands₁.later hclock) hremoves hplain hahead (hcards₁.later hclock)
    obtain ⟨all', end₃, hend₃, hlaid, hkept, hold⟩ := hlays _ _ end₂ hend₂ hcleared
    rw [hlaid.reaches env.os hend₃] at hlasts
    obtain ⟨tail, end₄, htail, hnone, hmany, hend₄, hcarded⟩ :=
      carded_standing (hlaid.later hfailed) hremoves hplain hlasts (sup.consecutive + 1) err
    obtain ⟨rfl, -⟩ := supervise_waited herr hturn
    have hcount : sup.consecutive = errs.length := by rw [h.counts.1]
    have hpast : ∀ b ∈ all', isCard b → b ∈ all ∧ b.start < a.start := fun b hb hcard =>
      mem_kept_card (hold b hb hcard) hcard
    refine ⟨all' ++ tail, end₄, hend₄, hcarded, ⟨all', tail, rfl, fun b hb hcard =>
      (hpast b hb hcard).2.trans_le hfailed, htail⟩, hlo'.trans (hclock.trans hfailed), ?_, ?_, ?_⟩
    · have hearly : all₀.filter (fun b => b.start < lo) =
          (all₀.filter fun b => b.start < lo).filter fun b => b.start < a.start := by
        refine (List.filter_eq_self.mpr fun b hb => ?_).symm
        have := of_decide_eq_true (List.mem_filter.mp hb).2
        exact decide_eq_true (by omega)
      rw [hearly]
      refine (hbegun.filter _).trans ?_
      rw [← kept_started]
      exact hkept.trans (List.prefix_append _ _)
    · rw [List.length_append, List.length_singleton, ← hcount]
      intro hless b hb hcard
      rw [hnone hless, List.append_nil] at hb
      exact hfew (by omega) b (hpast b hb hcard).1 hcard
    · rw [List.length_append, List.length_singleton, ← hcount]
      exact hmany

/-- Over any failures of a channel's loop the supervisor keeps one schedule without a hole: what had
begun stays, no card is laid before the third failure, and from it on cards after everything else
reach the end of the window. The first error is kept, and the waits double up to the cap. -/
theorem supervised_covers (h : Supervised env lo disk₀ last errs waits sup disk)
    (hremoves : ∀ f, env.os.removes f) (hplain : env.Untroubled) (hlo : lo ≤ end_)
    (hstands : Standing env.grid lo end_ all₀ disk₀.folder) (hcards : CardsLast lo all₀) :
    sup.firstErr = errs.head? ∧
      waits = (List.range errs.length).map (fun k =>
        min (CHANNEL_RESTART_BACKOFF_START * 2 ^ k) env.backoffCap) ∧
      ∃ all end_', last ≤ end_' ∧ Standing env.grid last end_' all disk.folder ∧
        CardsLast last all ∧ all₀.filter (fun b => b.start < lo) <+: all ∧
        (errs.length < CHANNEL_FAILURES_BEFORE_CARD → ∀ b ∈ all, isCard b → b ∈ all₀) ∧
        (CHANNEL_FAILURES_BEFORE_CARD ≤ errs.length → last + env.window ≤ end_') := by
  obtain ⟨rfl, hwaits⟩ := h.counts
  obtain ⟨all, end_', hend, hleft, hlast, -, hbegun, hfew, hmany⟩ :=
    h.stands hremoves hplain hlo hstands hcards
  exact ⟨rfl, hwaits, all, end_', hend, hleft, hlast, hbegun, hfew, hmany⟩

theorem supervised_covers_hourly : ∃ (disk : Store Unit) (waits : List ℕ) (sup : Supervisor)
    (all₀ all : List (PlayoutItem Unit)) (end_' : ℤ), sup.firstErr = some "no catalog" ∧
      waits = [30000000000, 60000000000, 120000000000] ∧
      Standing sixHours (HOUR / 2 + 90000000000) end_' all disk.folder ∧
      all₀.filter (fun b => b.start < HOUR / 2) <+: all ∧
      HOUR / 2 + 90000000000 + 2 * HOUR ≤ end_' := by
  obtain ⟨waits, sup, disk, hfails, -⟩ := hourly_fails
  obtain ⟨rule, hfirst, hcards⟩ := hourlyFirst_cards
  obtain ⟨hfirstErr, hwaits, all, end_', -, hstands, -, hbegun, -, hreach⟩ :=
    supervised_covers hfails (fun _ => rfl) (fun _ => rfl) hfirst.lasts hfirst.standing
      hcards
  exact ⟨disk, waits, sup, _, all, end_', hfirstErr, hwaits, hstands, hbegun, hreach le_rfl⟩

/-- Whenever the loop is started again, it finds the schedule as the failures left it but for the
cards to come, still without a hole. -/
theorem supervised_clears (h : Supervised env lo disk₀ last errs waits sup disk)
    (hremoves : ∀ f, env.os.removes f) (hplain : env.Untroubled) (hlo : lo ≤ end_)
    (hstands : Standing env.grid lo end_ all₀ disk₀.folder) (hcards : CardsLast lo all₀)
    {start : ℤ} (hclock : last ≤ start)
    (hahead : start ≤ (highestFinish (scanOutputFolder env.os disk.folder)).getD last) :
    ∃ all end_', all₀.filter (fun b => b.start < lo) <+: all ∧
      (∃ end₁, Standing env.grid last end₁ all disk.folder) ∧ start ≤ end_' ∧
      Standing env.grid start end_' (all.filter fun b => !(isCard b && start ≤ b.start))
        (env.cleared start disk).folder := by
  obtain ⟨all, end₁, hend₁, hleft, hlast, -, hbegun, -, -⟩ :=
    h.stands hremoves hplain hlo hstands hcards
  rw [hleft.reaches env.os hend₁] at hahead
  obtain ⟨end₂, hend₂, hcleared⟩ :=
    cleared_standing (hleft.later hclock) hremoves hplain hahead (hlast.later hclock)
  exact ⟨all, end₂, hbegun, ⟨end₁, hleft⟩, hend₂, hcleared⟩

theorem supervised_clears_hourly : ∃ (disk : Store Unit) (all₀ all : List (PlayoutItem Unit))
    (end_' : ℤ), all₀.filter (fun b => b.start < HOUR / 2) <+: all ∧
      Standing sixHours (HOUR / 2 + 210000000000) end_'
        (all.filter fun b => !(isCard b && HOUR / 2 + 210000000000 ≤ b.start))
        (hourlyCards.cleared (HOUR / 2 + 210000000000) disk).folder := by
  obtain ⟨waits, sup, disk, hfails, hahead⟩ := hourly_fails
  obtain ⟨rule, hfirst, hcards⟩ := hourlyFirst_cards
  obtain ⟨all, end_', hbegun, -, -, hstands⟩ :=
    supervised_clears hfails (fun _ => rfl) (fun _ => rfl) hfirst.lasts hfirst.standing hcards
      (show HOUR / 2 + 90000000000 ≤ HOUR / 2 + 210000000000 by decide) hahead
  exact ⟨disk, _, all, end_', hbegun, hstands⟩

end Turns

end EtvStation
