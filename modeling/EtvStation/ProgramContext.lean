import EtvStation.Wipe
import Mathlib.Data.List.DropRight

/-! What an overlay knows of the programme it draws over. It reads the chunk files back into one
list, an item that straddles chunks once, and looks the instant up in it. -/
namespace EtvStation

structure Actor where
  name : String
  role : Option String := none
  deriving DecidableEq, Repr

structure Credits where
  director : List String := []
  actor : List Actor := []
  writer : List String := []
  deriving DecidableEq, Repr

/-- The guide's account of an item, as the station writes it. -/
structure ProgramMetadata where
  title : Option String := none
  subTitle : Option String := none
  description : Option String := none
  season : Option ℕ := none
  episode : Option ℕ := none
  categories : Option (List String) := none
  contentRating : Option String := none
  artworkUrl : Option String := none
  year : Option ℕ := none
  credits : Option Credits := none
  country : Option (List String) := none
  starRating : Option String := none
  deriving DecidableEq, Repr

/-- The overlay an item names: none at all, or a script and its variables. -/
inductive OverlayChoice (μ : Type) where
  | disabled
  | script (path : String) (vars : Option (List (String × μ)))
  deriving DecidableEq, Repr

/-- The part of a playout item that is for the overlay, beside the others. A JSON null is `none`. -/
structure Presentation (μ γ : Type) where
  program : Option ProgramMetadata := none
  metadata : Option μ := none
  overlay : Option (OverlayChoice μ) := none
  others : γ
  deriving DecidableEq, Repr

structure CreditsRow where
  director : List String := []
  actor : List String := []
  writer : List String := []
  deriving DecidableEq, Repr

structure ProgramRow where
  title : Option String := none
  subTitle : Option String := none
  description : Option String := none
  season : Option ℤ := none
  episode : Option ℤ := none
  year : Option ℤ := none
  contentRating : Option String := none
  categories : Option (List String) := none
  country : Option (List String) := none
  starRating : Option String := none
  credits : Option CreditsRow := none
  deriving DecidableEq, Repr

inductive ItemOverlay (μ : Type) where
  | none
  | script (path : String) (vars : List (String × μ))
  deriving DecidableEq, Repr

structure ItemRow (μ : Type) where
  start : ℤ
  finish : ℤ
  program : Option ProgramRow := none
  metadata : Option μ := none
  overlay : Option (ItemOverlay μ) := none
  deriving DecidableEq, Repr

variable {μ γ : Type}

def CreditsRow.ofCredits (c : Credits) : CreditsRow where
  director := c.director
  actor := c.actor.map (·.name)
  writer := c.writer

def ProgramRow.ofProgram (p : ProgramMetadata) : ProgramRow where
  title := p.title
  subTitle := p.subTitle
  description := p.description
  season := p.season.map (↑)
  episode := p.episode.map (↑)
  year := p.year.map (↑)
  contentRating := p.contentRating
  categories := p.categories
  country := p.country
  starRating := p.starRating
  credits := p.credits.map .ofCredits

def ItemOverlay.ofChoice : OverlayChoice μ → ItemOverlay μ
  | .disabled => .none
  | .script path vars => .script path (vars.getD [])

/-- A written item read back. -/
def ItemRow.ofItem (a : PlayoutItem (Presentation μ γ)) : ItemRow μ where
  start := a.start
  finish := a.finish
  program := a.rest.program.map .ofProgram
  metadata := a.rest.metadata
  overlay := a.rest.overlay.map .ofChoice

/-- What is airing. A number the item does not give is `-1`, as are both times when nothing airs;
no metadata is the JSON null. -/
structure ProgramContext (μ : Type) where
  title : String
  subTitle : String
  description : String
  season : ℤ
  episode : ℤ
  year : ℤ
  contentRating : String
  categories : List String
  country : List String
  starRating : String
  directors : List String
  actors : List String
  writers : List String
  nextTitle : String
  nextSubTitle : String
  nextSeason : ℤ
  nextEpisode : ℤ
  nextYear : ℤ
  itemElapsed : ℚ
  itemRemaining : ℚ
  metadata : Option μ
  prevMetadata : Option μ
  overlay : Option (ItemOverlay μ)
  deriving DecidableEq, Repr

def ProgramContext.unknown : ProgramContext μ where
  title := ""
  subTitle := ""
  description := ""
  season := -1
  episode := -1
  year := -1
  contentRating := ""
  categories := []
  country := []
  starRating := ""
  directors := []
  actors := []
  writers := []
  nextTitle := ""
  nextSubTitle := ""
  nextSeason := -1
  nextEpisode := -1
  nextYear := -1
  itemElapsed := -1
  itemRemaining := -1
  metadata := none
  prevMetadata := none
  overlay := none

/-- What the current item and the one after it are both asked for. -/
structure ProgramFields where
  title : String := ""
  subTitle : String := ""
  season : ℤ
  episode : ℤ
  year : ℤ
  deriving DecidableEq, Repr

def programFields : Option ProgramRow → ProgramFields
  | none => { season := -1, episode := -1, year := -1 }
  | some p =>
    { title := p.title.getD ""
      subTitle := p.subTitle.getD ""
      season := p.season.getD (-1)
      episode := p.episode.getD (-1)
      year := p.year.getD (-1) }

def contextFromRows (now next : Option ProgramRow) (elapsed remaining : ℚ)
    (metadata prevMetadata : Option μ) (overlay : Option (ItemOverlay μ)) : ProgramContext μ :=
  let cur := programFields now
  let nxt := programFields next
  let credits := now.bind (·.credits)
  { title := cur.title
    subTitle := cur.subTitle
    description := (now.bind (·.description)).getD ""
    season := cur.season
    episode := cur.episode
    year := cur.year
    contentRating := (now.bind (·.contentRating)).getD ""
    categories := (now.bind (·.categories)).getD []
    country := (now.bind (·.country)).getD []
    starRating := (now.bind (·.starRating)).getD ""
    directors := (credits.map (·.director)).getD []
    actors := (credits.map (·.actor)).getD []
    writers := (credits.map (·.writer)).getD []
    nextTitle := nxt.title
    nextSubTitle := nxt.subTitle
    nextSeason := nxt.season
    nextEpisode := nxt.episode
    nextYear := nxt.year
    itemElapsed := elapsed
    itemRemaining := remaining
    metadata
    prevMetadata
    overlay }

def asSeconds (ns : ℤ) : ℚ := ns / 1000000000

/-- The extension of a file's name: what follows its last dot, when something comes before that. -/
def extension (name : List Char) : Option (List Char) :=
  if (name.rdropWhile (· ≠ '.')).length ≤ 1 then none else some (name.rtakeWhile (· ≠ '.'))

def isChunkFile (name : String) : Bool :=
  extension name.toList = some "json".toList && name.toList.contains '_'

/-- A file of the output folder, with the items read out of it unless that fails. -/
structure PlayoutEntry (μ : Type) where
  name : String
  items : Option (List (ItemRow μ))

def reloadItems (dir : List (PlayoutEntry μ)) : List (ItemRow μ) :=
  let entries := (dir.filter fun e => isChunkFile e.name).insertionSort fun a b => a.name ≤ b.name
  let items := entries.flatMap fun e => e.items.getD []
  (items.insertionSort fun a b => a.start ≤ b.start).destutter fun a b => a.start ≠ b.start

/-- What airs at `now`, of items in the order they start. -/
def currentAt (items : List (ItemRow μ)) (now : ℤ) : ProgramContext μ :=
  if items.isEmpty then .unknown
  else
    let after := (items.takeWhile fun i => i.start ≤ now).length
    if after = 0 then .unknown
    else
      let idx := after - 1
      match items[idx]? with
      | none => .unknown
      | some item =>
        if now < item.start ∨ now ≥ item.finish then .unknown
        else
          let next := items[idx + 1]?
          let prev := if idx = 0 then none else items[idx - 1]?
          contextFromRows item.program (next.bind (·.program)) (asSeconds (now - item.start))
            (asSeconds (item.finish - now)) item.metadata (prev.bind (·.metadata)) item.overlay

/-- A chunk file as the overlay finds it, its two ends stamped in whichever zone. -/
def PlayoutEntry.ofFile (stamps : ChunkFile (Presentation μ γ) → String × String)
    (f : ChunkFile (Presentation μ γ)) : PlayoutEntry μ where
  name := (stamps f).1 ++ "_" ++ (stamps f).2 ++ ".json"
  items := f.items.map (·.map .ofItem)

section Names

theorem extension_append (stem : List Char) (hstem : stem ≠ []) {ext : List Char} (h : '.' ∉ ext) :
    extension (stem ++ '.' :: ext) = some ext := by
  have hkeep : ∀ c ∈ ext.reverse, decide (c ≠ '.') = true := by
    intro c hc
    refine decide_eq_true ?_
    rintro rfl
    exact h (List.mem_reverse.mp hc)
  have hreverse : (stem ++ '.' :: ext).reverse = ext.reverse ++ '.' :: stem.reverse := by simp
  have hdrop : (stem ++ '.' :: ext).rdropWhile (· ≠ '.') = stem ++ ['.'] := by
    rw [List.rdropWhile, hreverse, List.dropWhile_append_of_pos hkeep,
      List.dropWhile_cons_of_neg (by simp)]
    simp
  have htake : (stem ++ '.' :: ext).rtakeWhile (· ≠ '.') = ext := by
    rw [List.rtakeWhile, hreverse, List.takeWhile_append_of_pos hkeep,
      List.takeWhile_cons_of_neg (by simp), List.append_nil, List.reverse_reverse]
  have hlength : ¬ (stem ++ ['.']).length ≤ 1 := by
    have := List.length_pos_of_ne_nil hstem
    simp only [List.length_append, List.length_singleton]
    omega
  rw [extension, hdrop, htake, if_neg hlength]

theorem isChunkFile_stamped (start finish : String) :
    isChunkFile (start ++ "_" ++ finish ++ ".json") = true := by
  have hsplit : (start ++ "_" ++ finish ++ ".json").toList =
      (start.toList ++ '_' :: finish.toList) ++ '.' :: "json".toList := by
    simp [String.toList_append]
  have hext : extension ((start.toList ++ '_' :: finish.toList) ++ '.' :: "json".toList) =
      some "json".toList := extension_append _ (by simp) (by decide)
  rw [isChunkFile, hsplit, hext]
  simp

example : [".durations.json", "overlay.json"].any isChunkFile = false := by decide

end Names

/-- What a call writes of its items: those that end after the instant it is written from and begin
before the end of the last chunk it reaches into. -/
def EmitCall.emitted {β : Type} (grid : ChunkGrid) (call : EmitCall β) : List (PlayoutItem β) :=
  if call.from_ < call.to_ then
    call.laid.filter fun a => call.from_ < a.finish ∧ a.start < grid.lastEnd call.to_
  else []

def emitted {β : Type} (grid : ChunkGrid) (calls : List (EmitCall β)) : List (PlayoutItem β) :=
  calls.flatMap (·.emitted grid)

/-- Calls each of which begins once those before it have ended, or sooner by less than any of their
items takes: the rounding of a total is of nanoseconds. -/
structure Following {β : Type} (calls : List (EmitCall β)) : Prop where
  positive : ∀ call ∈ calls, ∀ e ∈ call.rule, 0 < e.2
  joins : ∀ call ∈ calls, call.anchor ≤ call.from_
  ordered : calls.Pairwise fun a b =>
    (∀ e ∈ a.rule, a.ends < b.anchor + (e.2 : ℤ)) ∧ ∀ e ∈ b.rule, a.ends < b.anchor + (e.2 : ℤ)

/-- The next call begins at the instant the total of this one comes to, or the last item of this one
ends at, or later. -/
def EmitCall.LeadsTo {β : Type} (a b : EmitCall β) : Prop :=
  a.anchor + a.rule.totalDuration ≤ b.anchor ∨ a.ends ≤ b.anchor

instance {β : Type} : DecidableRel (@EmitCall.LeadsTo β) := fun a b =>
  inferInstanceAs (Decidable (a.anchor + a.rule.totalDuration ≤ b.anchor ∨ a.ends ≤ b.anchor))

section Laid

variable {β : Type} {grid : ChunkGrid} {calls : List (EmitCall β)}

/-- Each item begins before those after it, and ends before they do. -/
abbrev InOrder (items : List (PlayoutItem β)) : Prop :=
  items.Pairwise fun a b => a.start < b.start ∧ a.finish < b.finish

theorem EmitCall.laid_inOrder {call : EmitCall β} (hpos : ∀ e ∈ call.rule, 0 < e.2) :
    InOrder call.laid := by
  have hitems := Sequential.laid_pos hpos call.anchor
  refine (call.rule.laid_covers call.anchor).pairwise.imp_of_mem fun {a b} ha hb hab => ?_
  have := hitems a ha
  have := hitems b hb
  omega

theorem EmitCall.mem_laid {call : EmitCall β} {a : PlayoutItem β} (h : a ∈ call.laid) :
    call.anchor ≤ a.start ∧ a.finish ≤ call.ends ∧ ∃ e ∈ call.rule, a.finish = a.start + e.2 := by
  have hin := (call.rule.laid_covers call.anchor).mem h
  obtain ⟨e, he, rfl⟩ := List.mem_map.mp h
  obtain ⟨-, -, -, dur, hdur, heq⟩ := Sequential.mem_itemSpans he
  refine ⟨hin.1, hin.2.2, (e.1, dur), hdur, ?_⟩
  simpa using heq

theorem EmitCall.LeadsTo.anchor_le {a b : EmitCall β} (h : a.LeadsTo b) : a.anchor ≤ b.anchor := by
  have htotal : 0 ≤ a.rule.totalDuration := Int.natCast_nonneg _
  have hwalked : 0 ≤ a.rule.walked := Int.natCast_nonneg _
  unfold EmitCall.LeadsTo EmitCall.ends at h
  omega

theorem EmitCall.LeadsTo.trans {a b c : EmitCall β} (hab : a.LeadsTo b) (hbc : b.LeadsTo c) :
    a.LeadsTo c :=
  hab.imp (fun h => h.trans hbc.anchor_le) fun h => h.trans hbc.anchor_le

instance : Trans (@EmitCall.LeadsTo β) EmitCall.LeadsTo EmitCall.LeadsTo :=
  ⟨EmitCall.LeadsTo.trans⟩

/-- Calls that lead to one another follow one another where no item is as short, in nanoseconds, as
a call has items. -/
theorem Following.of_leadsTo (hjoins : ∀ call ∈ calls, call.anchor ≤ call.from_)
    (hleads : calls.IsChain EmitCall.LeadsTo)
    (hshort : ∀ call ∈ calls,
      (call.rule.map Prod.snd).sum + call.rule.length < 2 ^ 23 * Lib.F64.NANOS)
    (hlong : ∀ a ∈ calls, ∀ b ∈ calls, ∀ e ∈ b.rule, a.rule.length < e.2) : Following calls := by
  refine ⟨fun call hcall e he => Nat.zero_lt_of_lt (hlong call hcall call hcall e he), hjoins, ?_⟩
  refine hleads.pairwise.imp_of_mem fun {a b} ha hb hab => ?_
  have hnear := Sequential.totalDuration_near (hshort a ha)
  have hends : a.ends ≤ b.anchor + a.rule.length := by
    unfold EmitCall.LeadsTo EmitCall.ends at hab
    unfold EmitCall.ends
    omega
  constructor
  · intro e he
    have := hlong a ha a ha e he
    omega
  · intro e he
    have := hlong a ha b hb e he
    omega

theorem Following.inOrder (h : Following calls) : InOrder (calls.flatMap (·.laid)) := by
  obtain ⟨hpos, -, hordered⟩ := h
  induction calls with
  | nil => exact List.Pairwise.nil
  | cons call calls ih =>
    obtain ⟨hnext, hrest⟩ := List.pairwise_cons.mp hordered
    rw [List.flatMap_cons]
    refine List.pairwise_append.mpr ⟨EmitCall.laid_inOrder (hpos call List.mem_cons_self),
      ih (fun c hc => hpos c (List.mem_cons_of_mem _ hc)) hrest, fun a ha b hb => ?_⟩
    obtain ⟨later, hlater, hb⟩ := List.mem_flatMap.mp hb
    obtain ⟨-, haends, e, he, halong⟩ := EmitCall.mem_laid ha
    obtain ⟨hbstart, -, e', he', hblong⟩ := EmitCall.mem_laid hb
    have hfirst := (hnext later hlater).1 e he
    have hsecond := (hnext later hlater).2 e' he'
    omega

theorem Following.positive_items (h : Following calls) :
    ∀ a ∈ calls.flatMap (·.laid), a.start < a.finish := by
  intro a ha
  obtain ⟨call, hcall, ha⟩ := List.mem_flatMap.mp ha
  exact Sequential.laid_pos (h.positive call hcall) call.anchor a ha

theorem emitted_sublist : (emitted grid calls).Sublist (calls.flatMap (·.laid)) := by
  induction calls with
  | nil => exact List.Sublist.refl _
  | cons call calls ih =>
    rw [emitted, List.flatMap_cons, List.flatMap_cons]
    refine List.Sublist.append ?_ ih
    unfold EmitCall.emitted
    split_ifs
    · exact List.filter_sublist
    · exact List.nil_sublist _

/-- Every item written is in a file, and a file holds nothing else. -/
theorem Following.mem_emitted {folder : Folder β} (hchain : Following calls)
    (h : Stored grid (reached grid calls) folder) {a : PlayoutItem β} :
    a ∈ emitted grid calls ↔ ∃ f ∈ folder, a ∈ f.items.getD [] := by
  constructor
  · intro ha
    have hpos := hchain.positive_items a (emitted_sublist.mem ha)
    obtain ⟨call, hcall, ha⟩ := List.mem_flatMap.mp ha
    unfold EmitCall.emitted at ha
    split_ifs at ha with hmore
    · obtain ⟨hlaid, hinside⟩ := List.mem_filter.mp ha
      obtain ⟨hafter, hlast⟩ := of_decide_eq_true hinside
      -- Its first chunk of those written, or the last one, which the end of the call is in.
      set t := min (max a.start call.from_) (call.to_ - 1) with ht
      have hle := grid.boundary_le t
      have hlt := grid.lt_next t
      have hbegins : a.start < grid.next (grid.boundary t) := by
        rcases le_or_gt (max a.start call.from_) (call.to_ - 1) with hin | hpast
        · omega
        · rw [ht, min_eq_right hpast.le]
          exact hlast
      have hreach : a ∈ reached grid calls (grid.boundary t) := by
        refine List.mem_flatMap.mpr ⟨call, hcall, ?_⟩
        rw [EmitCall.reaches, if_neg (by omega)]
        exact List.mem_filter.mpr ⟨hlaid, decide_eq_true hafter⟩
      have hin : a ∈ chunkItems grid (reached grid calls (grid.boundary t)) (grid.boundary t) :=
        mem_chunkItems.mpr ⟨hreach, hbegins, by omega⟩
      refine ⟨chunkFile (grid.boundary t) (grid.next (grid.boundary t)) _, ?_, hin⟩
      refine (h.file _).mpr ⟨grid.boundary t, grid.boundary_boundary t, ?_⟩
      rw [fileOf, if_neg (List.ne_nil_of_mem hin)]
      rfl
    · exact absurd ha List.not_mem_nil
  · rintro ⟨f, hf, ha⟩
    obtain ⟨c, hc, hcf⟩ := (h.file f).mp hf
    rw [(fileOf_start hcf).2.1] at ha
    obtain ⟨hreached, hbegins, -⟩ := mem_chunkItems.mp ha
    obtain ⟨call, hcall, hreach⟩ := List.mem_flatMap.mp hreached
    obtain ⟨hlaid, hafter⟩ := EmitCall.mem_reaches hreach
    have hvisited : c < call.to_ ∧ call.from_ < call.to_ := by
      unfold EmitCall.reaches at hreach
      split_ifs at hreach with hnot
      · exact absurd hreach List.not_mem_nil
      · omega
    have hlast := grid.next_boundary_mono (show c ≤ call.to_ - 1 by omega)
    rw [hc] at hlast
    refine List.mem_flatMap.mpr ⟨call, hcall, ?_⟩
    rw [EmitCall.emitted, if_pos hvisited.2]
    exact List.mem_filter.mpr ⟨hlaid, decide_eq_true ⟨hafter, hbegins.trans_le hlast⟩⟩

end Laid

section Reading

variable {calls : List (EmitCall (Presentation μ γ))} {folder : Folder (Presentation μ γ)}
  {stamps : ChunkFile (Presentation μ γ) → String × String} {dir sidecars : List (PlayoutEntry μ)}

/-- The rows read, repeats and all, are those of the folder's chunk files. -/
theorem mem_rows (hdir : dir.Perm (folder.map (.ofFile stamps) ++ sidecars))
    (hsidecars : ∀ e ∈ sidecars, isChunkFile e.name = false) {row : ItemRow μ} :
    (∃ e ∈ dir, isChunkFile e.name ∧ row ∈ e.items.getD []) ↔
      ∃ f ∈ folder, ∃ a ∈ f.items.getD [], ItemRow.ofItem a = row := by
  constructor
  · rintro ⟨e, he, hname, hrow⟩
    rcases List.mem_append.mp (hdir.mem_iff.mp he) with he | he
    · obtain ⟨f, hf, rfl⟩ := List.mem_map.mp he
      refine ⟨f, hf, ?_⟩
      cases hitems : f.items with
      | none => simp [PlayoutEntry.ofFile, hitems] at hrow
      | some items => simpa [PlayoutEntry.ofFile, hitems] using hrow
    · rw [hsidecars e he] at hname
      cases hname
  · rintro ⟨f, hf, a, ha, rfl⟩
    refine ⟨.ofFile stamps f,
      hdir.mem_iff.mpr (List.mem_append_left _ (List.mem_map_of_mem hf)), ?_, ?_⟩
    · exact isChunkFile_stamped _ _
    · cases hitems : f.items with
      | none =>
        rw [hitems] at ha
        exact absurd ha List.not_mem_nil
      | some items =>
        rw [hitems] at ha
        simpa [PlayoutEntry.ofFile, hitems] using List.mem_map_of_mem (f := ItemRow.ofItem) ha

/-- The overlay's list is what was laid, each item once and in order. -/
theorem reloadItems_eq {grid : ChunkGrid} (hchain : Following calls)
    (h : Stored grid (reached grid calls) folder)
    (hdir : dir.Perm (folder.map (.ofFile stamps) ++ sidecars))
    (hsidecars : ∀ e ∈ sidecars, isChunkFile e.name = false) :
    reloadItems dir = (emitted grid calls).map .ofItem := by
  refine Lib.rebuild (List.pairwise_map.mpr ?_) fun row => ?_
  · exact (hchain.inOrder.sublist emitted_sublist).imp fun hab => hab.1
  · have hsort := List.perm_insertionSort (fun a b : PlayoutEntry μ => a.name ≤ b.name)
      (dir.filter fun e => isChunkFile e.name)
    rw [List.mem_flatMap, List.mem_map]
    constructor
    · rintro ⟨e, he, hrow⟩
      obtain ⟨hmem, hname⟩ := List.mem_filter.mp (hsort.mem_iff.mp he)
      obtain ⟨f, hf, a, ha, hread⟩ := (mem_rows hdir hsidecars).mp ⟨e, hmem, hname, hrow⟩
      exact ⟨a, (hchain.mem_emitted h).mpr ⟨f, hf, ha⟩, hread⟩
    · rintro ⟨a, ha, hread⟩
      obtain ⟨f, hf, hin⟩ := (hchain.mem_emitted h).mp ha
      obtain ⟨e, he, hname, hrow⟩ := (mem_rows hdir hsidecars).mpr ⟨f, hf, a, hin, hread⟩
      exact ⟨e, hsort.mem_iff.mpr (List.mem_filter.mpr ⟨he, hname⟩), hrow⟩

end Reading

section Lookup

variable {items : List (ItemRow μ)} {t : ℤ}

/-- The last item to have begun is described while it is on, with the ones on either side of it. -/
theorem currentAt_on {before after : List (ItemRow μ)} {a : ItemRow μ}
    (hbefore : ∀ b ∈ before, b.start ≤ t) (hafter : ∀ b ∈ after, t < b.start) (hat : a.start ≤ t)
    (hta : t < a.finish) : currentAt (before ++ a :: after) t =
      contextFromRows a.program (after.head?.bind (·.program)) (asSeconds (t - a.start))
        (asSeconds (a.finish - t)) a.metadata (before.getLast?.bind (·.metadata)) a.overlay := by
  have hstarted : (before ++ a :: after).takeWhile (fun i => i.start ≤ t) = before ++ [a] := by
    have hnext : after.takeWhile (fun i => i.start ≤ t) = [] := by
      cases after with
      | nil => rfl
      | cons b after =>
        have := hafter b List.mem_cons_self
        exact List.takeWhile_cons_of_neg (by simpa using this)
    rw [List.takeWhile_append_of_pos fun b hb => decide_eq_true (hbefore b hb),
      List.takeWhile_cons_of_pos (by simpa using hat), hnext]
  have hidx : (before ++ [a]).length - 1 = before.length := by simp
  have hnext : (before ++ a :: after)[before.length + 1]? = after.head? := by
    rw [List.getElem?_append_right (by omega), Nat.add_sub_cancel_left, List.getElem?_cons_succ,
      List.head?_eq_getElem?]
  have hprev : (if before.length = 0 then none else (before ++ a :: after)[before.length - 1]?) =
      before.getLast? := by
    split_ifs with hnone
    · rw [List.length_eq_zero_iff.mp hnone]
      rfl
    · rw [List.getElem?_append_left (by omega), List.getLast?_eq_getElem?]
  have hitem : (before ++ a :: after)[before.length]? = some a := by simp
  simp only [currentAt, hstarted, hidx, hitem, hnext, hprev]
  rw [if_neg (by simp), if_neg (by simp), if_neg (by omega)]

/-- With no item on nothing is described. -/
theorem currentAt_off (hoff : ∀ a ∈ items, ¬ (a.start ≤ t ∧ t < a.finish)) :
    currentAt items t = .unknown := by
  unfold currentAt
  split
  · rfl
  · dsimp only
    split
    · rfl
    · cases hitem : items[(items.takeWhile fun i => i.start ≤ t).length - 1]? with
      | none => rfl
      | some item =>
        have hnot := hoff item (List.mem_of_getElem? hitem)
        dsimp only
        rw [if_pos (by omega)]

theorem contextFromRows_ne_unknown {now next : Option ProgramRow} {elapsed remaining : ℚ}
    {metadata prevMetadata : Option μ} {overlay : Option (ItemOverlay μ)} (h : 0 ≤ elapsed) :
    contextFromRows now next elapsed remaining metadata prevMetadata overlay ≠ .unknown := by
  intro hsame
  have helapsed : elapsed = -1 := congrArg ProgramContext.itemElapsed hsame
  rw [helapsed] at h
  norm_num at h

end Lookup

/-- The overlay reads the schedule that was laid: at an instant of a laid item, the last of them if
a rounding has two on, it describes that item with the laid ones on either side of it, and at no
other instant anything. -/
theorem currentAt_laid {os : Os (Presentation μ γ)} (hremoves : ∀ f, os.removes f)
    {grid : ChunkGrid} {calls : List (EmitCall (Presentation μ γ))} (hchain : Following calls)
    {folder : Folder (Presentation μ γ)} (hemit : emitCalls os grid calls [] = .ok folder)
    (stamps : ChunkFile (Presentation μ γ) → String × String) {dir sidecars : List (PlayoutEntry μ)}
    (hdir : dir.Perm (folder.map (.ofFile stamps) ++ sidecars))
    (hsidecars : ∀ e ∈ sidecars, isChunkFile e.name = false) (t : ℤ) :
    (∀ before a after, emitted grid calls = before ++ a :: after → a.start ≤ t → t < a.finish →
      (∀ b ∈ after, ¬ (b.start ≤ t ∧ t < b.finish)) →
      currentAt (reloadItems dir) t =
        contextFromRows (a.rest.program.map .ofProgram)
          ((after.head?.bind (·.rest.program)).map .ofProgram)
          (asSeconds (t - a.start)) (asSeconds (a.finish - t)) a.rest.metadata
          (before.getLast?.bind (·.rest.metadata)) (a.rest.overlay.map .ofChoice)) ∧
    (currentAt (reloadItems dir) t = .unknown ↔
      ∀ a ∈ emitted grid calls, ¬ (a.start ≤ t ∧ t < a.finish)) := by
  have hnil : Stored grid (fun _ => ([] : List (PlayoutItem (Presentation μ γ)))) [] := stored_nil
  obtain ⟨stored, hrun, hstored⟩ := emitCalls_stored hremoves hchain.joins hnil
  obtain rfl : stored = folder := Except.ok.inj (hrun.symm.trans hemit)
  have hstored : Stored grid (reached grid calls) stored := hstored
  have hreload := reloadItems_eq hchain hstored hdir hsidecars
  have horder : InOrder (emitted grid calls) := hchain.inOrder.sublist emitted_sublist
  have hon : ∀ before a after, emitted grid calls = before ++ a :: after → a.start ≤ t →
      t < a.finish → (∀ b ∈ after, ¬ (b.start ≤ t ∧ t < b.finish)) →
      currentAt (reloadItems dir) t =
        contextFromRows (a.rest.program.map .ofProgram)
          ((after.head?.bind (·.rest.program)).map .ofProgram)
          (asSeconds (t - a.start)) (asSeconds (a.finish - t)) a.rest.metadata
          (before.getLast?.bind (·.rest.metadata)) (a.rest.overlay.map .ofChoice) := by
    intro before a after hlaid hat hta hlast
    rw [hlaid] at horder
    obtain ⟨-, hright, hleft⟩ := List.pairwise_append.mp horder
    have hbefore : ∀ r ∈ before.map (ItemRow.ofItem (μ := μ)), r.start ≤ t := by
      intro r hr
      obtain ⟨b, hb, rfl⟩ := List.mem_map.mp hr
      exact ((hleft b hb a List.mem_cons_self).1.trans_le hat).le
    have hafter : ∀ r ∈ after.map (ItemRow.ofItem (μ := μ)), t < r.start := by
      intro r hr
      obtain ⟨b, hb, rfl⟩ := List.mem_map.mp hr
      have hlater := (List.pairwise_cons.mp hright).1 b hb
      by_contra hbegun
      exact hlast b hb ⟨not_lt.mp hbegun, hta.trans hlater.2⟩
    rw [hreload, hlaid, List.map_append, List.map_cons, currentAt_on hbefore hafter hat hta]
    have hnext : ((after.map ItemRow.ofItem).head?.bind fun r : ItemRow μ => r.program) =
        (after.head?.bind (·.rest.program)).map .ofProgram := by
      cases after <;> rfl
    have hprev : ((before.map ItemRow.ofItem).getLast?.bind fun r : ItemRow μ => r.metadata) =
        before.getLast?.bind (·.rest.metadata) := by
      rw [List.getLast?_map]
      cases before.getLast? <;> rfl
    rw [hnext, hprev]
    rfl
  refine ⟨hon, ?_, ?_⟩
  · intro hunknown a ha hat
    obtain ⟨before, last, after, hlaid, hat, hafter⟩ :=
      Lib.exists_last (p := fun b => b.start ≤ t ∧ t < b.finish) ⟨a, ha, hat⟩
    rw [hon before last after hlaid hat.1 hat.2 hafter] at hunknown
    refine contextFromRows_ne_unknown ?_ hunknown
    have : (0 : ℚ) ≤ ((t - last.start : ℤ) : ℚ) := by exact_mod_cast sub_nonneg.mpr hat.1
    unfold asSeconds
    positivity
  · intro hoff
    refine currentAt_off fun row hrow => ?_
    rw [hreload] at hrow
    obtain ⟨a, ha, rfl⟩ := List.mem_map.mp hrow
    exact hoff a ha

def film (title : String) (hours : ℕ) : ResolvedItem (Presentation String Unit) × ℕ :=
  (⟨title, 0, .lavfi "color=c=black", none, false,
    { program := some { title := some title }, others := () }⟩, hours * 3600000000000)

/-- A film of fourteen hours, in three chunks, and a short after it; then another film. -/
def marathon : List (EmitCall (Presentation String Unit)) :=
  [⟨0, 0, 15 * HOUR, [film "Epic" 14, film "Short" 1]⟩,
    ⟨15 * HOUR, 15 * HOUR, 22 * HOUR, [film "Late" 7]⟩]

theorem marathon_following : Following marathon :=
  .of_leadsTo (by decide) (by decide +kernel) (by decide) (by decide)

/-- Seven hours into the long film, beside an overlay's sidecar. -/
theorem currentAt_marathon : ∃ folder,
    emitCalls (plainOs _) sixHours marathon [] = .ok folder ∧
    currentAt (reloadItems (folder.map (.ofFile fun f => (toString f.start, toString f.finish)) ++
      [⟨"overlay.json", none⟩])) (7 * HOUR) =
      contextFromRows (some { title := some "Epic" }) (some { title := some "Short" })
        (asSeconds (7 * HOUR)) (asSeconds (7 * HOUR)) none none none := by
  have hnil : Stored sixHours (fun _ => ([] : List (PlayoutItem (Presentation String Unit)))) [] :=
    stored_nil
  have hremoves : ∀ f, (plainOs (Presentation String Unit)).removes f := fun _ => rfl
  obtain ⟨folder, hrun, -⟩ := emitCalls_stored hremoves marathon_following.joins hnil
  have hlaid := currentAt_laid hremoves marathon_following hrun
    (fun f => (toString f.start, toString f.finish)) (List.Perm.refl _)
    (show ∀ e ∈ [(⟨"overlay.json", none⟩ : PlayoutEntry String)], isChunkFile e.name = false by
      decide) (7 * HOUR)
  exact ⟨folder, hrun, hlaid.1 [] _ _ rfl (by decide) (by decide) (by decide)⟩

end EtvStation
