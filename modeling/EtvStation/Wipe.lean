import EtvStation.CatchUp
import EtvStation.Lib.Spans
import Mathlib.Data.List.Find

/-! A wipe at an item boundary: what it leaves is the folder that the items before the cut alone
would have made. -/
namespace EtvStation

variable {β : Type}

def emitCalls (os : Os β) (grid : ChunkGrid) :
    List (EmitCall β) → Folder β → Except EmitError (Folder β)
  | [], folder => .ok folder
  | call :: calls, folder => do
    let (_, folder) ← emitWindow os grid call.rule call.anchor call.from_ call.to_ folder
    emitCalls os grid calls folder

/-- Calls that go on from one another: each begins once the last item of those before it has ended,
and is written from its beginning or from an instant inside it. -/
structure Chained (calls : List (EmitCall β)) : Prop where
  positive : ∀ call ∈ calls, ∀ e ∈ call.rule, 0 < e.2
  joins : ∀ call ∈ calls, call.anchor ≤ call.from_
  ordered : calls.Pairwise fun a b => a.ends ≤ b.anchor

/-- What the calls write into the chunk at `c`. -/
def reached (grid : ChunkGrid) (calls : List (EmitCall β)) (c : ℤ) : List (PlayoutItem β) :=
  calls.flatMap fun call => call.reaches grid c

section Emission

variable {grid : ChunkGrid} {before : ℤ → List (PlayoutItem β)}

theorem emitCalls_stored {os : Os β} (hremoves : ∀ f, os.removes f) {calls : List (EmitCall β)}
    (hjoins : ∀ call ∈ calls, call.anchor ≤ call.from_) {folder : Folder β}
    (h : Stored grid before folder) :
    ∃ folder', emitCalls os grid calls folder = .ok folder' ∧
      Stored grid (fun c => before c ++ reached grid calls c) folder' := by
  induction calls generalizing before folder with
  | nil =>
    refine ⟨folder, rfl, h.congr fun c _ => ?_⟩
    rw [reached, List.flatMap_nil, List.append_nil]
  | cons call calls ih =>
    have hopens : Stored grid (fun c =>
        if grid.next c ≤ call.from_ then before c ++ call.reaches grid c else before c) folder := by
      refine h.congr fun c _ => ?_
      split_ifs with hnext
      · rw [EmitCall.reaches, if_pos (Or.inl hnext), List.append_nil]
      · rfl
    obtain ⟨written, mid, hone, hmid⟩ := EmitCall.emitLoop_reached hremoves
      (hjoins call List.mem_cons_self) (call.to_ - call.from_).toNat le_rfl (Or.inl rfl) le_rfl
      hopens
    obtain ⟨folder', hrest, hstored⟩ := ih (fun c hc => hjoins c (List.mem_cons_of_mem _ hc)) hmid
    refine ⟨folder', ?_, hstored.congr fun c _ => ?_⟩
    · simp only [emitCalls, emitWindow, hone, Lib.ok_bind, hrest]
    · rw [reached, List.flatMap_cons, List.append_assoc]
      rfl

/-- Two folders of the same items have the same files. -/
theorem Stored.perm {laid : ℤ → List (PlayoutItem β)} {folder folder' : Folder β}
    (h : Stored grid laid folder) (h' : Stored grid laid folder') : folder.Perm folder' :=
  (List.perm_ext_iff_of_nodup h.nodup h'.nodup).mpr fun f => (h.file f).trans (h'.file f).symm

end Emission

section Order

variable {grid : ChunkGrid} {calls : List (EmitCall β)}

theorem EmitCall.laid_apart {call : EmitCall β} (hpos : ∀ e ∈ call.rule, 0 < e.2) :
    Lib.Apart (·.start) (·.finish) call.laid where
  forward a ha := (Sequential.laid_pos hpos call.anchor a ha).le
  ordered := (call.rule.laid_covers call.anchor).pairwise

theorem Chained.tail {call : EmitCall β} (h : Chained (call :: calls)) : Chained calls where
  positive c hc := h.positive c (List.mem_cons_of_mem _ hc)
  joins c hc := h.joins c (List.mem_cons_of_mem _ hc)
  ordered := (List.pairwise_cons.mp h.ordered).2

theorem Chained.apart (h : Chained calls) :
    Lib.Apart (·.start) (·.finish) (calls.flatMap (·.laid)) := by
  induction calls with
  | nil => exact Lib.Apart.nil
  | cons call calls ih =>
    rw [List.flatMap_cons]
    refine (EmitCall.laid_apart (h.positive call List.mem_cons_self)).append (ih h.tail) ?_
    intro a ha b hb
    obtain ⟨later, hlater, hb⟩ := List.mem_flatMap.mp hb
    have hends : a.finish ≤ call.ends := ((call.rule.laid_covers call.anchor).mem ha).2.2
    have hanchor : later.anchor ≤ b.start := ((later.rule.laid_covers later.anchor).mem hb).1
    have hbetween := (List.pairwise_cons.mp h.ordered).1 later hlater
    omega

theorem Chained.positive_items (h : Chained calls) :
    ∀ a ∈ calls.flatMap (·.laid), a.start < a.finish := by
  intro a ha
  obtain ⟨call, hcall, ha⟩ := List.mem_flatMap.mp ha
  exact Sequential.laid_pos (h.positive call hcall) call.anchor a ha

theorem reached_sublist (c : ℤ) :
    (reached grid calls c).Sublist (calls.flatMap (·.laid)) := by
  induction calls with
  | nil => exact List.Sublist.refl _
  | cons call calls ih =>
    rw [reached, List.flatMap_cons, List.flatMap_cons]
    refine List.Sublist.append ?_ ih
    unfold EmitCall.reaches
    split_ifs
    · exact List.nil_sublist _
    · exact List.filter_sublist

end Order

section Steps

variable {env : TickEnv β} {laid : ℤ → List (PlayoutItem β)} {cut : ℤ}

theorem removeFile_run (hremoves : ∀ f, env.os.removes f) (f : ChunkFile β) (s : Store β) :
    (env.removeFile f).run s =
      .ok ⟨⟩ { s with folder := s.folder.filter fun g => g.name ≠ f.name } := by
  unfold TickEnv.removeFile
  rw [if_pos (hremoves f)]
  rfl

theorem removeAll_run (hremoves : ∀ f, env.os.removes f) (files : List (ChunkFile β))
    (s : Store β) : (files.forM env.removeFile).run s =
      .ok ⟨⟩ { s with folder := s.folder.filter fun g => g.name ∉ files.map (·.name) } := by
  induction files generalizing s with
  | nil =>
    have hall : s.folder.filter (fun g => g.name ∉ ([] : List (ChunkFile β)).map (·.name)) =
        s.folder := List.filter_eq_self.mpr fun g _ => by simp
    rw [hall]
    rfl
  | cons f files ih =>
    show (env.removeFile f >>= fun _ => files.forM env.removeFile).run s = _
    rw [EStateM.run_bind, removeFile_run hremoves]
    dsimp only
    rw [ih, List.filter_filter]
    congr 2
    refine List.filter_congr fun g _ => ?_
    simp [Bool.and_comm]

/-- A folder in which the file of one chunk has given way to another, or to none. -/
theorem Stored.replace {folder folder' : Folder β} {grid : ChunkGrid} (h : Stored grid laid folder)
    (laid' : ℤ → List (PlayoutItem β)) {c : ℤ} (hc : grid.boundary c = c)
    (hother : ∀ d, d ≠ c → laid' d = laid d) (hnodup : folder'.Nodup)
    (hmem : ∀ g, g ∈ folder' ↔ fileOf grid (laid' c) c = some g ∨ g ∈ folder ∧ g.start ≠ c) :
    Stored grid laid' folder' := by
  refine ⟨fun g => ?_, hnodup⟩
  rw [hmem, h.file]
  constructor
  · intro hg
    rcases hg with hg | ⟨⟨d, hd, hdg⟩, hstart⟩
    · exact ⟨c, hc, hg⟩
    · have hdc : d ≠ c := fun heq => hstart ((fileOf_start hdg).1.trans heq)
      exact ⟨d, hd, by rw [hother d hdc, hdg]⟩
  · intro hg
    obtain ⟨d, hd, hdg⟩ := hg
    by_cases hdc : d = c
    · rw [hdc] at hdg
      exact Or.inl hdg
    · have hstart : g.start ≠ c := by
        rw [(fileOf_start hdg).1]
        exact hdc
      rw [hother d hdc] at hdg
      exact Or.inr ⟨⟨d, hd, hdg⟩, hstart⟩

/-- The chunk's items that end by the cut. -/
theorem chunkItems_filter (grid : ChunkGrid) (items : List (PlayoutItem β)) (p : PlayoutItem β → Bool)
    (c : ℤ) : chunkItems grid (items.filter p) c = (chunkItems grid items c).filter p := by
  rw [chunkItems, chunkItems, List.filter_filter, List.filter_filter]
  refine List.filter_congr fun a _ => ?_
  rw [Bool.and_comm]

/-- Of items apart the last one ends latest. -/
theorem max_finish_of_apart {items : List (PlayoutItem β)} (h : Lib.Apart (·.start) (·.finish) items)
    (hpos : ∀ a ∈ items, a.start < a.finish) {a : PlayoutItem β} (ha : items.getLast? = some a) :
    (∀ b ∈ items, b.finish ≤ a.finish) ∧ (items.map (·.finish)).max? = some a.finish := by
  have hmem := List.mem_of_getLast? ha
  have hle : ∀ b ∈ items, b.finish ≤ a.finish := by
    obtain ⟨front, rfl⟩ := List.getLast?_eq_some_iff.mp ha
    intro b hb
    rcases List.mem_append.mp hb with hb | hb
    · have hbefore := (List.pairwise_append.mp h.ordered).2.2 b hb a (List.mem_singleton_self _)
      have := hpos a hmem
      omega
    · rw [List.mem_singleton.mp hb]
  refine ⟨hle, List.max?_eq_some_iff.mpr ⟨List.mem_map_of_mem hmem, fun x hx => ?_⟩⟩
  obtain ⟨b, hb, rfl⟩ := List.mem_map.mp hx
  exact hle b hb

theorem truncatePlayoutAt_none (hremoves : ∀ f, env.os.removes f) {f : ChunkFile β}
    {items : List (PlayoutItem β)} (hitems : f.items = some items) (hne : items ≠ [])
    (hkept : items.filter (fun a => a.finish ≤ cut) = []) (s : Store β) :
    (env.truncatePlayoutAt cut f).run s =
      .ok ⟨⟩ { s with folder := s.folder.filter fun g => g.name ≠ f.name } := by
  have hread : f.read = .ok items := by simp only [ChunkFile.read, hitems]
  have hshort : ¬ ([] : List (PlayoutItem β)).length = items.length := fun h =>
    hne (List.length_eq_zero_iff.mp h.symm)
  have hrun : (env.truncatePlayoutAt cut f).run s = (env.removeFile f).run s := by
    unfold TickEnv.truncatePlayoutAt
    rw [hread, EStateM.run_bind]
    simp only [TickEnv.lift, EStateM.run_pure, hkept, if_neg hshort]
    rfl
  rw [hrun, removeFile_run hremoves]

theorem truncatePlayoutAt_some (hremoves : ∀ f, env.os.removes f)
    (hrewrite : ∀ name, env.fails (.rewrite name) = false) {f : ChunkFile β}
    {items kept : List (PlayoutItem β)} (hitems : f.items = some items)
    (hkept : items.filter (fun a => a.finish ≤ cut) = kept) (hlen : kept.length ≠ items.length)
    {finish : ℤ} (hmax : (kept.map (·.finish)).max? = some finish) (hfinish : finish ≠ f.finish)
    (s : Store β) : (env.truncatePlayoutAt cut f).run s =
      .ok ⟨⟩ { s with
        folder := (writeFile s.folder ⟨f.start, finish, some kept⟩).filter (·.name ≠ f.name) } := by
  have hread : f.read = .ok items := by simp only [ChunkFile.read, hitems]
  have hrun : (env.truncatePlayoutAt cut f).run s =
      (env.removeFile f).run { s with folder := writeFile s.folder ⟨f.start, finish, some kept⟩ } := by
    unfold TickEnv.truncatePlayoutAt
    rw [hread, EStateM.run_bind]
    simp only [TickEnv.lift, EStateM.run_pure, hkept, if_neg hlen, hmax, if_pos hfinish,
      TickEnv.attempt, hrewrite]
    rfl
  rw [hrun, removeFile_run hremoves]

theorem writeFile_nodup {folder : Folder β} (h : folder.Nodup) (file : ChunkFile β) :
    (writeFile folder file).Nodup := by
  refine List.Nodup.append (h.filter _) (List.nodup_singleton _) fun g hg hsame => ?_
  have hname := of_decide_eq_true (List.mem_filter.mp hg).2
  exact hname (congrArg ChunkFile.name (List.mem_singleton.mp hsame))

/-- A file of the folder is told by its chunk. -/
theorem Stored.name_ne_iff {folder : Folder β} {grid : ChunkGrid} (h : Stored grid laid folder)
    {f g : ChunkFile β} (hf : f ∈ folder) (hg : g ∈ folder) :
    g.name ≠ f.name ↔ g.start ≠ f.start := by
  rw [not_iff_not]
  constructor
  · exact congrArg Prod.fst
  · intro hstart
    rw [h.unique hg hf hstart]

/-- A chunk whose items end inside it is named to the last of them. -/
theorem chunkFile_of_lt {c e : ℤ} {items : List (PlayoutItem β)} (hne : items ≠ [])
    (hlt : (items.getLast hne).finish ≤ e) :
    chunkFile c e items = ⟨c, (items.getLast hne).finish, some items⟩ := by
  rw [ChunkFile.mk.injEq, chunkFile_finish (List.getLast?_eq_some_getLast hne)]
  exact ⟨rfl, min_eq_left hlt, rfl⟩

/-- Cutting a file whose name runs past the cut leaves the chunk its items that end by then. -/
theorem truncatePlayoutAt_run (hremoves : ∀ f, env.os.removes f)
    (hrewrite : ∀ name, env.fails (.rewrite name) = false) {s : Store β}
    (h : Stored env.grid laid s.folder) (hapart : ∀ c, Lib.Apart (·.start) (·.finish) (laid c))
    (hpos : ∀ c, ∀ a ∈ laid c, a.start < a.finish) {f : ChunkFile β} (hf : f ∈ s.folder)
    (hover : cut < f.finish) : ∃ s', (env.truncatePlayoutAt cut f).run s = .ok ⟨⟩ s' ∧
      Stored env.grid
        (fun c => if c = f.start then (laid c).filter fun a : PlayoutItem β => a.finish ≤ cut
          else laid c) s'.folder := by
  obtain ⟨c, hc, hof⟩ := (h.file f).mp hf
  obtain ⟨hstart, hitems, hne⟩ := fileOf_start hof
  have hfile : chunkFile c (env.grid.next c) (chunkItems env.grid (laid c) c) = f := by
    rw [fileOf, if_neg hne] at hof
    exact Option.some.inj hof
  set items := chunkItems env.grid (laid c) c with hitemsdef
  have hlast := List.getLast?_eq_some_getLast hne
  rw [← hfile, chunkFile_finish hlast, lt_min_iff] at hover
  have hcutItems : chunkItems env.grid ((laid c).filter fun a => a.finish ≤ cut) c =
      items.filter fun a => a.finish ≤ cut := chunkItems_filter _ _ _ _
  have hother : ∀ d, d ≠ c → (fun d => if d = f.start then
      (laid d).filter fun a : PlayoutItem β => a.finish ≤ cut else laid d) d = laid d := fun d hd =>
    if_neg fun heq => hd (heq.trans hstart)
  have hsame : ∀ g ∈ s.folder, (g.name ≠ f.name ↔ g.start ≠ c) := by
    intro g hg
    rw [h.name_ne_iff hf hg, hstart]
  by_cases hkept : items.filter (fun a => a.finish ≤ cut) = []
  · refine ⟨_, truncatePlayoutAt_none hremoves hitems hne hkept s, ?_⟩
    refine h.replace _ hc hother (h.nodup.filter _) fun g => ?_
    rw [if_pos hstart.symm, fileOf, hcutItems, if_pos hkept, List.mem_filter, decide_eq_true_iff]
    constructor
    · intro hg
      exact Or.inr ⟨hg.1, (hsame g hg.1).mp hg.2⟩
    · intro hg
      rcases hg with hg | hg
      · cases hg
      · exact ⟨hg.1, (hsame g hg.1).mpr hg.2⟩
  · have hkeptlast := List.getLast?_eq_some_getLast hkept
    have hsub : (items.filter fun a => a.finish ≤ cut).Sublist (laid c) :=
      List.filter_sublist.trans List.filter_sublist
    have hmax := (max_finish_of_apart ((hapart c).sublist hsub) (fun a ha => hpos c a (hsub.mem ha)) hkeptlast).2
    have hby := of_decide_eq_true (List.mem_filter.mp (List.getLast_mem hkept)).2
    have hshort : (items.filter fun a => a.finish ≤ cut).length ≠ items.length := by
      intro hlen
      have hall := List.filter_eq_self.mp (List.filter_sublist.eq_of_length hlen) _
        (List.getLast_mem hne)
      have := of_decide_eq_true hall
      omega
    have hffinish : f.finish = min (items.getLast hne).finish (env.grid.next c) := by
      rw [← hfile, chunkFile_finish hlast]
    have hdiffer : ((items.filter fun a => a.finish ≤ cut).getLast hkept).finish ≠ f.finish := by
      rw [hffinish]
      omega
    refine ⟨_, truncatePlayoutAt_some hremoves hrewrite hitems rfl hshort hmax hdiffer s, ?_⟩
    have hnew : chunkFile c (env.grid.next c) (items.filter fun a => a.finish ≤ cut) =
        ⟨f.start, ((items.filter fun a => a.finish ≤ cut).getLast hkept).finish,
          some (items.filter fun a => a.finish ≤ cut)⟩ := by
      rw [hstart]
      exact chunkFile_of_lt hkept (hby.trans hover.2.le)
    rw [← hnew]
    set new := chunkFile c (env.grid.next c) (items.filter fun a => a.finish ≤ cut) with hnewdef
    have hnewname : new.name ≠ f.name := by
      intro hname
      rw [hnew] at hname
      exact hdiffer (congrArg Prod.snd hname)
    refine h.replace _ hc hother ((writeFile_nodup h.nodup new).filter _) fun g => ?_
    rw [if_pos hstart.symm, fileOf, hcutItems, if_neg hkept, List.mem_filter, decide_eq_true_iff,
      writeFile, List.mem_append, List.mem_filter, List.mem_singleton, decide_eq_true_iff,
      Option.some.injEq]
    constructor
    · intro hg
      rcases hg with ⟨hg | hg, hname⟩
      · exact Or.inr ⟨hg.1, (hsame g hg.1).mp hname⟩
      · exact Or.inl hg.symm
    · intro hg
      rcases hg with hg | hg
      · rw [← hg]
        exact ⟨Or.inr rfl, hnewname⟩
      · exact ⟨Or.inl ⟨hg.1, fun hname => hg.2 (congrArg Prod.fst hname)⟩, (hsame g hg.1).mpr hg.2⟩

/-- Cutting every file that runs past the cut. -/
theorem truncateAll_run (hremoves : ∀ f, env.os.removes f)
    (hrewrite : ∀ name, env.fails (.rewrite name) = false) (files : List (ChunkFile β))
    {s : Store β} (h : Stored env.grid laid s.folder)
    (hapart : ∀ c, Lib.Apart (·.start) (·.finish) (laid c))
    (hpos : ∀ c, ∀ a ∈ laid c, a.start < a.finish)
    (hfiles : ∀ f ∈ files, f ∈ s.folder ∧ cut < f.finish)
    (hdistinct : (files.map (·.start)).Nodup) :
    ∃ s', (files.forM (env.truncatePlayoutAt cut)).run s = .ok ⟨⟩ s' ∧
      Stored env.grid (fun c => if c ∈ files.map (·.start) then
        (laid c).filter fun a : PlayoutItem β => a.finish ≤ cut else laid c) s'.folder := by
  induction files generalizing laid s with
  | nil => exact ⟨s, rfl, h⟩
  | cons f files ih =>
    obtain ⟨hnot, hrest⟩ := List.nodup_cons.mp hdistinct
    obtain ⟨hf, hover⟩ := hfiles f List.mem_cons_self
    obtain ⟨s₁, hrun, hstored⟩ :=
      truncatePlayoutAt_run hremoves hrewrite h hapart hpos hf hover
    set laid' : ℤ → List (PlayoutItem β) := fun c =>
      if c = f.start then (laid c).filter fun a => a.finish ≤ cut else laid c with hlaid'
    have hsub : ∀ c, (laid' c).Sublist (laid c) := by
      intro c
      rw [hlaid']
      dsimp only
      split_ifs
      · exact List.filter_sublist
      · exact List.Sublist.refl _
    have hkeep : ∀ g ∈ files, g ∈ s₁.folder ∧ cut < g.finish := by
      intro g hg
      obtain ⟨hg', hgover⟩ := hfiles g (List.mem_cons_of_mem _ hg)
      obtain ⟨d, hd, hdg⟩ := (h.file g).mp hg'
      have hdf : d ≠ f.start := by
        rw [← (fileOf_start hdg).1]
        intro heq
        exact hnot (List.mem_map.mpr ⟨g, hg, heq⟩)
      have hsame : laid' d = laid d := if_neg hdf
      exact ⟨(hstored.file g).mpr ⟨d, hd, by rw [hsame, hdg]⟩, hgover⟩
    obtain ⟨s', hrun', hstored'⟩ := ih hstored
      (fun c => (hapart c).sublist (hsub c))
      (fun c a ha => hpos c a ((hsub c).mem ha)) hkeep hrest
    refine ⟨s', ?_, hstored'.congr fun c _ => ?_⟩
    · show (env.truncatePlayoutAt cut f >>= fun _ =>
        files.forM (env.truncatePlayoutAt cut)).run s = _
      rw [EStateM.run_bind, hrun]
      exact hrun'
    · congr 1
      by_cases hcf : c = f.start
      · have hout : c ∉ files.map (·.start) := by
          rw [hcf]
          exact hnot
        have hin : c ∈ (f :: files).map (·.start) := List.mem_map.mpr ⟨f, List.mem_cons_self, hcf.symm⟩
        rw [if_neg hout, if_pos hin]
        exact (if_pos hcf).symm
      · have hsame : laid' c = laid c := if_neg hcf
        have hiff : c ∈ (f :: files).map (·.start) ↔ c ∈ files.map (·.start) := by
          rw [List.map_cons, List.mem_cons]
          exact or_iff_right hcf
        rw [hsame]
        simp only [hiff]

end Steps

section Wiped

variable {env : TickEnv β} {laid : ℤ → List (PlayoutItem β)} {cut : ℤ}

/-- Without the files from the cut on, the chunks from there on are empty. -/
theorem Stored.before {folder : Folder β} {grid : ChunkGrid} (h : Stored grid laid folder)
    (os : Os β) : Stored grid (fun c => if c < cut then laid c else [])
      (folder.filter fun g =>
        g.name ∉ ((scanOutputFolder os folder).filter fun f => f.start ≥ cut).map (·.name)) := by
  have hmem : ∀ g, g ∈ (folder.filter fun g =>
      g.name ∉ ((scanOutputFolder os folder).filter fun f => f.start ≥ cut).map (·.name)) ↔
      g ∈ folder ∧ g.start < cut := by
    intro g
    rw [List.mem_filter, decide_eq_true_iff]
    refine and_congr_right fun hg => ?_
    rw [← not_le, not_iff_not, List.mem_map]
    constructor
    · intro hgone
      obtain ⟨f, hf, hname⟩ := hgone
      have hstart : f.start = g.start := congrArg Prod.fst hname
      rw [← hstart]
      exact of_decide_eq_true (List.mem_filter.mp hf).2
    · intro hlate
      exact ⟨g, List.mem_filter.mpr ⟨(mem_scanOutputFolder os).mpr hg, decide_eq_true hlate⟩, rfl⟩
  refine ⟨fun g => ?_, h.nodup.filter _⟩
  rw [hmem, h.file]
  constructor
  · intro hg
    obtain ⟨⟨c, hc, hcg⟩, hlt⟩ := hg
    rw [(fileOf_start hcg).1] at hlt
    exact ⟨c, hc, by rw [if_pos hlt, hcg]⟩
  · intro hg
    obtain ⟨c, hc, hcg⟩ := hg
    by_cases hlt : c < cut
    · rw [if_pos hlt] at hcg
      refine ⟨⟨c, hc, hcg⟩, ?_⟩
      rw [(fileOf_start hcg).1]
      exact hlt
    · rw [if_neg hlt] at hcg
      cases hcg

/-- A file whose name ends by the cut holds no item that does not. -/
theorem Stored.ended {folder : Folder β} {grid : ChunkGrid} (h : Stored grid laid folder)
    {c : ℤ} (hc : grid.boundary c = c) (hapart : Lib.Apart (·.start) (·.finish) (laid c))
    (hpos : ∀ a ∈ laid c, a.start < a.finish)
    (hcut : ∀ a ∈ laid c, a.finish ≤ cut ∨ cut ≤ a.start)
    (hname : ∀ f ∈ folder, f.start = c → f.finish ≤ cut) :
    ∀ a ∈ chunkItems grid (laid c) c, a.finish ≤ cut := by
  intro a ha
  have hne := List.ne_nil_of_mem ha
  have hlast := List.getLast?_eq_some_getLast hne
  have hsub : (chunkItems grid (laid c) c).Sublist (laid c) := List.filter_sublist
  have hmost := (max_finish_of_apart (hapart.sublist hsub) (fun a ha => hpos a (hsub.mem ha)) hlast).1 a ha
  have hfile := hname (chunkFile c (grid.next c) (chunkItems grid (laid c) c))
    ((h.file _).mpr ⟨c, hc, by rw [fileOf, if_neg hne]⟩) rfl
  rw [chunkFile_finish hlast, min_le_iff] at hfile
  obtain ⟨hin, hstart, -⟩ := mem_chunkItems.mp ha
  rcases hfile with hfile | hfile
  · omega
  · have := hcut a hin
    omega

/-- A wipe at an instant inside no item leaves every chunk its items that end by then. -/
theorem wipePlayoutFrom_stored (hremoves : ∀ f, env.os.removes f)
    (hscan : env.fails (.scan .heal) = false) (hrewrite : ∀ name, env.fails (.rewrite name) = false)
    {s : Store β} (h : Stored env.grid laid s.folder)
    (hapart : ∀ c, Lib.Apart (·.start) (·.finish) (laid c))
    (hpos : ∀ c, ∀ a ∈ laid c, a.start < a.finish)
    (hcut : ∀ c, ∀ a ∈ laid c, a.finish ≤ cut ∨ cut ≤ a.start) :
    ∃ s', (env.wipePlayoutFrom cut).run s = .ok ⟨⟩ s' ∧
      Stored env.grid (fun c => (laid c).filter fun a => a.finish ≤ cut) s'.folder := by
  set files := scanOutputFolder env.os s.folder with hfiles
  have hbefore := @Stored.before β laid cut s.folder env.grid h env.os
  set laid₁ : ℤ → List (PlayoutItem β) := fun c => if c < cut then laid c else [] with hlaid₁
  have hsub : ∀ c, (laid₁ c).Sublist (laid c) := by
    intro c
    rw [hlaid₁]
    dsimp only
    split_ifs
    · exact List.Sublist.refl _
    · exact List.nil_sublist _
  have hmem : ∀ f, f ∈ files.filter (fun f => f.start < cut ∧ f.finish > cut) ↔
      f ∈ s.folder ∧ f.start < cut ∧ cut < f.finish := by
    intro f
    rw [List.mem_filter, decide_eq_true_iff, hfiles, mem_scanOutputFolder]
  have hcuts : ∀ f ∈ files.filter (fun f => f.start < cut ∧ f.finish > cut),
      f ∈ s.folder.filter (fun g => g.name ∉ (files.filter fun f => f.start ≥ cut).map (·.name)) ∧
        cut < f.finish := by
    intro f hf
    obtain ⟨hin, hstart, hover⟩ := (hmem f).mp hf
    obtain ⟨c, hc, hcf⟩ := (h.file f).mp hin
    have hearly : laid₁ c = laid c := if_pos (by rwa [← (fileOf_start hcf).1])
    exact ⟨(hbefore.file f).mpr ⟨c, hc, by rw [hearly, hcf]⟩, hover⟩
  have hdistinct : ((files.filter fun f => f.start < cut ∧ f.finish > cut).map (·.start)).Nodup := by
    have hnodup : (files.filter fun f => f.start < cut ∧ f.finish > cut).Nodup :=
      ((((List.perm_insertionSort _ _).trans (env.os.perm _)).nodup_iff).mpr h.nodup).filter _
    refine hnodup.map_on ?_
    intro f hf g hg hstart
    exact h.unique ((hmem f).mp hf).1 ((hmem g).mp hg).1 hstart
  obtain ⟨s', hrun, hstored⟩ := truncateAll_run hremoves hrewrite _ (s := { s with
      folder := s.folder.filter fun g =>
        g.name ∉ (files.filter fun f => f.start ≥ cut).map (·.name) }) hbefore
    (fun c => (hapart c).sublist (hsub c)) (fun c a ha => hpos c a ((hsub c).mem ha))
    hcuts hdistinct
  refine ⟨s', ?_, hstored.congr fun c hc => ?_⟩
  · unfold TickEnv.wipePlayoutFrom TickEnv.scan TickEnv.attempt
    rw [hscan]
    show ((files.filter fun f => f.start ≥ cut).forM env.removeFile >>= fun _ =>
      (files.filter fun f => f.start < cut ∧ f.finish > cut).forM
        (env.truncatePlayoutAt cut)).run s = _
    rw [EStateM.run_bind, removeAll_run hremoves]
    exact hrun
  · by_cases hin : c ∈ (files.filter fun f => f.start < cut ∧ f.finish > cut).map (·.start)
    · obtain ⟨f, hf, hstart⟩ := List.mem_map.mp hin
      have hearly : laid₁ c = laid c := if_pos (by rw [← hstart]; exact ((hmem f).mp hf).2.1)
      rw [if_pos hin, hearly]
    · rw [if_neg hin]
      by_cases hearly : c < cut
      · have hsame : laid₁ c = laid c := if_pos hearly
        have hall := h.ended hc (hapart c) (hpos c) (hcut c) fun f hf hstart => not_lt.mp fun hover =>
          hin (List.mem_map.mpr ⟨f, (hmem f).mpr ⟨hf, by rwa [hstart], hover⟩, hstart⟩)
        have hkept := List.filter_eq_self.mpr fun a ha => decide_eq_true (hall a ha)
        rw [hsame, fileOf, fileOf, chunkItems_filter, hkept]
      · have hsame : laid₁ c = [] := if_neg hearly
        have hnone : chunkItems env.grid ((laid c).filter fun a => a.finish ≤ cut) c = [] := by
          refine List.filter_eq_nil_iff.mpr fun a ha => ?_
          have := of_decide_eq_true (List.mem_filter.mp ha).2
          simp only [Bool.and_eq_true, decide_eq_true_eq, not_and, not_lt]
          omega
        rw [hsame, fileOf, if_pos hnone]
        rfl

end Wiped

/-- What the player finds at `t`: a file whose name claims the instant, then an item in it that is
on then. -/
def playerFinds (listing : Folder β) (t : ℤ) : Option (PlayoutItem β) :=
  (listing.find? fun f => f.start ≤ t ∧ t < f.finish).bind fun f =>
    (f.items.getD []).find? fun a => a.start ≤ t ∧ t < a.finish

def survivingFrontier (os : Os β) (folder : Folder β) (wipedFrom : ℤ) : ℤ :=
  max ((highestFinish (scanOutputFolder os folder)).getD wipedFrom) wipedFrom

/-- An item of the folder begins or ends at `t`. -/
def ItemBoundary (folder : Folder β) (t : ℤ) : Prop :=
  ∃ f ∈ folder, ∃ a ∈ f.items.getD [], a.start = t ∨ a.finish = t

instance (folder : Folder β) (t : ℤ) : Decidable (ItemBoundary folder t) :=
  inferInstanceAs (Decidable (∃ f ∈ folder, ∃ a ∈ f.items.getD [], a.start = t ∨ a.finish = t))

section Lookup

variable {grid : ChunkGrid} {laid : ℤ → List (PlayoutItem β)} {folder listing : Folder β}

/-- The player finds the item of the instant's chunk that is on then, in whichever order it reads
the folder. -/
theorem Stored.playerFinds_eq (h : Stored grid laid folder) (hlisting : listing.Perm folder)
    (hapart : ∀ c, Lib.Apart (·.start) (·.finish) (laid c))
    (hpos : ∀ c, ∀ a ∈ laid c, a.start < a.finish) (t : ℤ) :
    playerFinds listing t = (chunkItems grid (laid (grid.boundary t)) (grid.boundary t)).find?
      fun a => a.start ≤ t ∧ t < a.finish := by
  have hle := grid.boundary_le t
  have hlt := grid.lt_next t
  have hc := grid.boundary_boundary t
  set c := grid.boundary t with hcdef
  have hclaims : ∀ f ∈ listing, f.start ≤ t → t < f.finish → fileOf grid (laid c) c = some f := by
    intro f hf hstart hfinish
    obtain ⟨d, hd, hdf⟩ := (h.file f).mp (hlisting.mem_iff.mp hf)
    obtain ⟨hfd, -, hne⟩ := fileOf_start hdf
    have hend : f.finish ≤ grid.next d := by
      rw [fileOf, if_neg hne] at hdf
      rw [← Option.some.inj hdf, chunkFile_finish (List.getLast?_eq_some_getLast hne)]
      exact min_le_right _ _
    have hsame : grid.boundary t = grid.boundary d :=
      grid.boundary_eq (by rw [hd]; omega) (by rw [hd]; omega)
    rw [hcdef, hsame, hd]
    exact hdf
  by_cases hne : chunkItems grid (laid c) c = []
  · have hnone : listing.find? (fun f => f.start ≤ t ∧ t < f.finish) = none := by
      refine List.find?_eq_none.mpr fun f hf hat => ?_
      obtain ⟨hstart, hfinish⟩ := of_decide_eq_true hat
      have hof := hclaims f hf hstart hfinish
      rw [fileOf, if_pos hne] at hof
      cases hof
    rw [playerFinds, hnone, hne]
    rfl
  · have hlast := List.getLast?_eq_some_getLast hne
    have hof : fileOf grid (laid c) c =
        some (chunkFile c (grid.next c) (chunkItems grid (laid c) c)) := by rw [fileOf, if_neg hne]
    have hin := hlisting.mem_iff.mpr ((h.file _).mpr ⟨c, hc, hof⟩)
    by_cases hnamed : t < (chunkFile c (grid.next c) (chunkItems grid (laid c) c)).finish
    · have hfind := find?_of_unique (p := fun f : ChunkFile β => f.start ≤ t ∧ t < f.finish) hin
        (decide_eq_true ⟨hle, hnamed⟩) fun f hf hat => by
          obtain ⟨hstart, hfinish⟩ := of_decide_eq_true hat
          exact Option.some.inj ((hclaims f hf hstart hfinish).symm.trans hof)
      rw [playerFinds, hfind]
      rfl
    · rw [chunkFile_finish hlast, not_lt, min_le_iff] at hnamed
      have hsub : (chunkItems grid (laid c) c).Sublist (laid c) := List.filter_sublist
      have hmost := (max_finish_of_apart ((hapart c).sublist hsub) (fun a ha => hpos c a (hsub.mem ha)) hlast).1
      have hover : (chunkItems grid (laid c) c).find? (fun a => a.start ≤ t ∧ t < a.finish) =
          none := by
        refine List.find?_eq_none.mpr fun a ha hat => ?_
        have := of_decide_eq_true hat
        have := hmost a ha
        omega
      have hnone : listing.find? (fun f => f.start ≤ t ∧ t < f.finish) = none := by
        refine List.find?_eq_none.mpr fun f hf hat => ?_
        obtain ⟨hstart, hfinish⟩ := of_decide_eq_true hat
        have hf' := Option.some.inj (hof.symm.trans (hclaims f hf hstart hfinish))
        rw [← hf', chunkFile_finish hlast, lt_min_iff] at hfinish
        omega
      rw [playerFinds, hnone, hover]
      rfl

theorem survivingFrontier_eq (os : Os β) {cut : ℤ}
    (h : ∀ f ∈ folder, f.finish ≤ cut ∧ ∀ a ∈ f.items.getD [], a.finish ≤ cut) :
    survivingFrontier os folder cut = cut := by
  refine max_eq_right ?_
  cases hhigh : highestFinish (scanOutputFolder os folder) with
  | none => exact le_rfl
  | some t => exact highestFinish_le os h t hhigh

end Lookup

def Sequential.upTo (cut : ℤ) : (start : ℤ) → Sequential β → Sequential β
  | _, [] => []
  | start, (item, dur) :: rest =>
    if start + dur ≤ cut then (item, dur) :: Sequential.upTo cut (start + dur) rest else []

def EmitCall.upTo (cut : ℤ) (call : EmitCall β) : EmitCall β :=
  { call with to_ := min call.to_ cut, rule := Sequential.upTo cut call.anchor call.rule }

theorem Sequential.laid_upTo (cut start : ℤ) (rule : Sequential β) :
    (Sequential.upTo cut start rule).laid start =
      (rule.laid start).filter fun a => a.finish ≤ cut := by
  induction rule generalizing start with
  | nil => rfl
  | cons e rule ih =>
    obtain ⟨item, dur⟩ := e
    have hlaid : laid ((item, dur) :: rule) start =
        buildPlayoutItem item start (start + dur) :: laid rule (start + dur) := rfl
    rw [upTo, hlaid]
    split_ifs with hends
    · have hkeep : decide ((buildPlayoutItem item start (start + dur)).finish ≤ cut) = true := by
        simpa using hends
      rw [List.filter_cons, if_pos hkeep, ← ih]
      rfl
    · refine (List.filter_eq_nil_iff.mpr fun a ha => ?_).symm
      rw [decide_eq_true_iff, not_le]
      rcases List.mem_cons.mp ha with rfl | ha
      · rw [buildPlayoutItem_finish]
        omega
      · have hmem := (laid_covers rule (start + dur)).mem ha
        omega

theorem EmitCall.reaches_upTo (grid : ChunkGrid) (call : EmitCall β) (cut c : ℤ) :
    chunkItems grid ((call.upTo cut).reaches grid c) c =
      chunkItems grid ((call.reaches grid c).filter fun a => a.finish ≤ cut) c := by
  have hlaid : (call.upTo cut).laid = call.laid.filter fun a => a.finish ≤ cut :=
    Sequential.laid_upTo cut call.anchor call.rule
  have hfrom : (call.upTo cut).from_ = call.from_ := rfl
  have hto : (call.upTo cut).to_ = min call.to_ cut := rfl
  rw [reaches, reaches, hlaid, hfrom, hto]
  split_ifs with hshort hlong
  · rfl
  · -- The chunk begins at the cut or after it, and what ends by the cut is not in it.
    refine (List.filter_eq_nil_iff.mpr fun a ha => ?_).symm
    obtain ⟨ha, hcut⟩ := List.mem_filter.mp ha
    have hafter := of_decide_eq_true (List.mem_filter.mp ha).2
    have hby := of_decide_eq_true hcut
    simp only [Bool.and_eq_true, decide_eq_true_eq, not_and, not_lt]
    omega
  · omega
  · rw [List.filter_comm]

theorem reached_upTo (grid : ChunkGrid) (calls : List (EmitCall β)) (cut c : ℤ) :
    chunkItems grid (reached grid (calls.map (·.upTo cut)) c) c =
      chunkItems grid ((reached grid calls c).filter fun a => a.finish ≤ cut) c := by
  induction calls with
  | nil => rfl
  | cons call calls ih =>
    have hcons : ∀ (call : EmitCall β) calls, reached grid (call :: calls) c =
        call.reaches grid c ++ reached grid calls c := fun _ _ => rfl
    rw [List.map_cons, hcons, hcons, chunkItems_append, List.filter_append, chunkItems_append, ih,
      call.reaches_upTo]

section Chain

variable {env : TickEnv β} {calls : List (EmitCall β)} {cut : ℤ}

/-- Where one item of a chain begins or ends no other is on. -/
theorem Chained.not_across {folder : Folder β} {grid : ChunkGrid} (h : Chained calls)
    (hstored : Stored grid (reached grid calls) folder) (hcut : ItemBoundary folder cut)
    (c : ℤ) : ∀ a ∈ reached grid calls c, a.finish ≤ cut ∨ cut ≤ a.start := by
  obtain ⟨f, hf, b, hb, hat⟩ := hcut
  obtain ⟨d, hd, hdf⟩ := (hstored.file f).mp hf
  rw [(fileOf_start hdf).2.1] at hb
  have hball := (reached_sublist d).mem (mem_chunkItems.mp hb).1
  intro a ha
  have haall := (reached_sublist c).mem ha
  have hpos := h.positive_items a haall
  have hposb := h.positive_items b hball
  rcases h.apart.before_or_after haall hball with rfl | hbefore | hafter
  · rcases hat with hat | hat <;> omega
  · rcases hat with hat | hat <;> omega
  · rcases hat with hat | hat <;> omega

/-- A wipe at an item boundary of a chain of generations, none of which begins before the last item
of those before it has ended, cuts there: before it the player finds
what it found, from it on nothing; every name and the frontier end there; and what is emitted next
goes where it would have gone had the wiped items never been emitted. -/
theorem wipePlayoutFrom_exact (hremoves : ∀ f, env.os.removes f)
    (hscan : env.fails (.scan .heal) = false) (hrewrite : ∀ name, env.fails (.rewrite name) = false)
    (hchain : Chained calls) {disk : Store β}
    (hemit : emitCalls env.os env.grid calls [] = .ok disk.folder)
    (hcut : ItemBoundary disk.folder cut) :
    ∃ disk', (env.wipePlayoutFrom cut).run disk = .ok ⟨⟩ disk' ∧
      (∀ listing listing' : Folder β, listing.Perm disk.folder → listing'.Perm disk'.folder →
        ∀ t, playerFinds listing' t = if t < cut then playerFinds listing t else none) ∧
      (∀ f ∈ disk'.folder, f.finish ≤ cut) ∧
      survivingFrontier env.os disk'.folder cut = cut ∧
      ∃ kept, emitCalls env.os env.grid (calls.map (·.upTo cut)) [] = .ok kept ∧
        ∀ more : List (EmitCall β), (∀ call ∈ more, call.anchor ≤ call.from_) →
          ∃ resumed untouched, emitCalls env.os env.grid more disk'.folder = .ok resumed ∧
            emitCalls env.os env.grid more kept = .ok untouched ∧ resumed.Perm untouched := by
  have hnil : Stored env.grid (fun _ => ([] : List (PlayoutItem β))) [] := stored_nil
  obtain ⟨folder, hrun, hstored⟩ := emitCalls_stored hremoves hchain.joins hnil
  obtain rfl : folder = disk.folder := Except.ok.inj (hrun.symm.trans hemit)
  have hstored : Stored env.grid (reached env.grid calls) disk.folder := hstored
  have hapart : ∀ c, Lib.Apart (·.start) (·.finish) (reached env.grid calls c) := fun c =>
    hchain.apart.sublist (reached_sublist c)
  have hpos : ∀ c, ∀ a ∈ reached env.grid calls c, a.start < a.finish := fun c a ha =>
    hchain.positive_items a ((reached_sublist c).mem ha)
  have hacross := hchain.not_across hstored hcut
  obtain ⟨disk', hwipe, hleft⟩ :=
    wipePlayoutFrom_stored hremoves hscan hrewrite hstored hapart hpos hacross
  have hends : ∀ f ∈ disk'.folder, f.finish ≤ cut ∧ ∀ a ∈ f.items.getD [], a.finish ≤ cut := by
    intro f hf
    obtain ⟨c, hc, hcf⟩ := (hleft.file f).mp hf
    obtain ⟨-, hitems, hne⟩ := fileOf_start hcf
    have hall : ∀ a ∈ chunkItems env.grid ((reached env.grid calls c).filter fun a =>
        a.finish ≤ cut) c, a.finish ≤ cut := fun a ha =>
      of_decide_eq_true (List.mem_filter.mp (mem_chunkItems.mp ha).1).2
    constructor
    · rw [fileOf, if_neg hne] at hcf
      rw [← Option.some.inj hcf, chunkFile_finish (List.getLast?_eq_some_getLast hne)]
      exact (min_le_left _ _).trans (hall _ (List.getLast_mem hne))
    · rw [hitems]
      exact hall
  refine ⟨disk', hwipe, ?_, fun f hf => (hends f hf).1, survivingFrontier_eq _ hends, ?_⟩
  · intro listing listing' hlisting hlisting' t
    rw [hleft.playerFinds_eq hlisting' (fun c => (hapart c).filter _)
      (fun c a ha => hpos c a (List.mem_filter.mp ha).1), chunkItems_filter, List.find?_filter]
    split_ifs with ht
    · rw [hstored.playerFinds_eq hlisting hapart hpos]
      refine List.find?_congr fun a ha => ?_
      have hside := hacross _ a (mem_chunkItems.mp ha).1
      rw [Bool.eq_iff_iff, decide_eq_true_iff, decide_eq_true_iff, decide_eq_true_iff]
      omega
    · refine List.find?_eq_none.mpr fun a _ hat => ?_
      simp only [decide_eq_true_eq] at hat
      omega
  · have hjoins : ∀ call ∈ calls.map (·.upTo cut), call.anchor ≤ call.from_ := by
      intro call hcall
      obtain ⟨whole, hwhole, rfl⟩ := List.mem_map.mp hcall
      exact hchain.joins whole hwhole
    obtain ⟨kept, hkeptrun, hkept⟩ := emitCalls_stored hremoves hjoins hnil
    have hkept : Stored env.grid
        (fun c => (reached env.grid calls c).filter fun a => a.finish ≤ cut) kept :=
      hkept.congr fun c _ => by rw [fileOf, fileOf, List.nil_append, reached_upTo]
    refine ⟨kept, hkeptrun, fun more hmore => ?_⟩
    obtain ⟨resumed, hresumed, hstored₁⟩ := emitCalls_stored hremoves hmore hleft
    obtain ⟨untouched, huntouched, hstored₂⟩ := emitCalls_stored hremoves hmore hkept
    exact ⟨resumed, untouched, hresumed, huntouched, hstored₁.perm hstored₂⟩

end Chain

/-- A film of seven hours, a short, and another film after a gap. -/
def twoEvenings : List (EmitCall Unit) :=
  [⟨0, 0, 8 * HOUR, [clip "long" 7, clip "short" 1]⟩,
    ⟨9 * HOUR, 9 * HOUR, 16 * HOUR, [clip "late" 7]⟩]

theorem twoEvenings_chained : Chained twoEvenings := ⟨by decide, by decide, by decide⟩

/-- Cut as the short begins, inside the second chunk. -/
theorem wipePlayoutFrom_twoEvenings : ∃ folder disk',
    emitCalls (plainOs Unit) sixHours twoEvenings [] = .ok folder ∧
    ((hourly fun _ => false).wipePlayoutFrom (7 * HOUR)).run { folder } = .ok ⟨⟩ disk' ∧
    ∀ f ∈ disk'.folder, f.finish ≤ 7 * HOUR := by
  let env := hourly fun _ => false
  have hcut : (emitCalls env.os env.grid twoEvenings []).toOption.any
      (fun folder => ItemBoundary folder (7 * HOUR)) = true := by decide +kernel
  have hremoves : ∀ f, env.os.removes f := fun _ => rfl
  cases hemit : emitCalls env.os env.grid twoEvenings [] with
  | error e =>
    rw [hemit] at hcut
    cases hcut
  | ok folder =>
    rw [hemit] at hcut
    have hdisk : emitCalls env.os env.grid twoEvenings [] =
        .ok ({ folder := folder } : Store Unit).folder := hemit
    obtain ⟨disk', hrun, -, hnames, -⟩ := wipePlayoutFrom_exact hremoves rfl (fun _ => rfl)
      twoEvenings_chained hdisk (of_decide_eq_true hcut)
    exact ⟨folder, disk', hemit, hrun, hnames⟩

/-- Forty-nine films of just under three hours, and a short after them. -/
def filmWeek : List (Sequential Unit) :=
  [List.replicate 49 (⟨"film", 0, .lavfi "color=c=black", none, false, ()⟩, 10486100000000),
    [clip "short" 1]]

/-- In floating point the films come to a nanosecond less than their lengths, and the short begins
before the last of them has ended: a wipe where it begins takes that film as well, of which three
hours are before the cut. -/
theorem wipePlayoutFrom_drops : (∀ rule ∈ filmWeek, ∀ e ∈ rule, 0 < e.2) ∧
    ∃ to_ folder, emitAll (plainOs Unit) sixHours filmWeek 0 [] = .ok (to_, folder) ∧
      ∃ cut, ItemBoundary folder cut ∧ ∃ disk',
        ((hourly fun _ => false).wipePlayoutFrom cut).run { folder } = .ok ⟨⟩ disk' ∧
        ∃ t < cut, playerFinds folder t ≠ none ∧ playerFinds disk'.folder t = none := by
  have hcheck : (emitAll (plainOs Unit) sixHours filmWeek 0 []).toOption.any (fun r =>
      decide (ItemBoundary r.2 513818899999999 ∧ (playerFinds r.2 513818899999998).isSome) &&
      match ((hourly fun _ => false).wipePlayoutFrom 513818899999999).run { folder := r.2 } with
      | .ok _ disk' => (playerFinds disk'.folder 513818899999998).isNone
      | .error _ _ => false) = true := by
    decide +kernel
  cases hemit : emitAll (plainOs Unit) sixHours filmWeek 0 [] with
  | error e =>
    rw [hemit] at hcheck
    cases hcheck
  | ok r =>
    rw [hemit] at hcheck
    obtain ⟨hbefore, hwiped⟩ := Bool.and_eq_true_iff.mp hcheck
    obtain ⟨hcut, hfound⟩ := of_decide_eq_true hbefore
    cases hrun : ((hourly fun _ => false).wipePlayoutFrom 513818899999999).run { folder := r.2 } with
    | error e disk' =>
      rw [hrun] at hwiped
      cases hwiped
    | ok u disk' =>
      rw [hrun] at hwiped
      exact ⟨by decide +kernel, r.1, r.2, rfl, 513818899999999, hcut, disk', hrun,
        513818899999998, by decide, Option.isSome_iff_ne_none.mp hfound,
        Option.isNone_iff_eq_none.mp hwiped⟩

end EtvStation
