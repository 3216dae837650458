import EtvStation.Emit

/-! Leftover files of a chunk. A removal may fail, or never be reached, and leave earlier stages
of a chunk's growing list beside the longest; which of them the next write grows is the order
the file system lists them in. -/
namespace EtvStation

variable {β : Type}

/-- One chunk's turn in a window: read what is stored, write it with the new items, remove the
other files. A process that stops before the removals is one whose removals all fail. -/
def growChunk (os : Os β) (grid : ChunkGrid) (chunkStart : ℤ) (new : List (PlayoutItem β))
    (folder : Folder β) : Except EmitError (Option (ChunkFile β × Folder β)) := do
  let stored ← readChunkItems os folder chunkStart
  let items := stored ++ new
  if items.isEmpty then return none
  else
    let file := chunkFile chunkStart (grid.next chunkStart) items
    return some (file, removeOtherChunkFiles os (writeFile folder file) file)

/-- A window is laid chunk by chunk, each chunk in its turn. -/
theorem emitLoop_growChunk (os : Os β) (grid : ChunkGrid) (rule : Sequential β)
    (anchor to_ : ℤ) (fuel : ℕ) {cursor : ℤ} (folder : Folder β) (h : cursor < to_) :
    emitLoop os grid rule anchor to_ (fuel + 1) cursor folder = (do
      let chunkStart := grid.boundary cursor
      match ← growChunk os grid chunkStart
          (rule.itemsCovering anchor cursor (grid.next chunkStart)) folder with
      | none => return ([], folder)
      | some (file, folder) =>
        let (written, folder) ← emitLoop os grid rule anchor to_ fuel (grid.next chunkStart) folder
        return (file :: written, folder)) := by
  rw [emitLoop, if_pos h]
  simp only [growChunk]
  cases readChunkItems os folder (grid.boundary cursor) with
  | error e => rfl
  | ok stored =>
    simp only [Lib.ok_bind]
    split_ifs
    · rfl
    · rfl

/-- A folder of stages: each chunk has its longest list stored, and beside it only beginnings
of it. -/
structure Staged (longest : ℤ → List (PlayoutItem β)) (folder : Folder β) : Prop where
  stage : ∀ f ∈ folder, ∃ items, f.items = some items ∧ items <+: longest f.start
  stored : ∀ c, longest c ≠ [] → ∃ f ∈ folder, f.start = c ∧ f.items = some (longest c)

def ChunkFile.length (f : ChunkFile β) : ℕ := (f.items.getD []).length

/-- The first file listed for a chunk is a longest one. -/
def LongestFirst (os : Os β) (folder : Folder β) (c : ℤ) : Prop :=
  ∀ f, (scanOutputFolder os folder).find? (fun g => g.start = c) = some f →
    ∀ g ∈ folder, g.start = c → g.length ≤ f.length

section Stages

variable {os : Os β} {grid : ChunkGrid} {longest : ℤ → List (PlayoutItem β)} {folder : Folder β}

/-- What is read back is a stage, and the longest exactly when the longest is listed first. -/
theorem Staged.read (h : Staged longest folder) (os : Os β) (c : ℤ) :
    ∃ stored, readChunkItems os folder c = .ok stored ∧
      (stored = longest c ↔ LongestFirst os folder c) := by
  cases hfind : (scanOutputFolder os folder).find? fun g => g.start = c with
  | none =>
    refine ⟨[], by simp only [readChunkItems, hfind], fun _ f hf => ?_, fun _ => ?_⟩
    · rw [hfind] at hf
      cases hf
    · by_contra hne
      obtain ⟨f, hf, hstart, -⟩ := h.stored c (Ne.symm hne)
      have := List.find?_eq_none.mp hfind f ((mem_scanOutputFolder os).mpr hf)
      simp [hstart] at this
  | some f =>
    have hf := (mem_scanOutputFolder os).mp (List.mem_of_find?_eq_some hfind)
    have hstart : f.start = c := by simpa using List.find?_some hfind
    obtain ⟨items, hitems, hprefix⟩ := h.stage f hf
    rw [hstart] at hprefix
    have hlength : f.length = items.length := by simp [ChunkFile.length, hitems]
    refine ⟨items, by simp only [readChunkItems, hfind, hitems], ?_, ?_⟩
    · rintro rfl g hg g' hg' hstart'
      rw [hfind] at hg
      obtain rfl := Option.some.inj hg
      obtain ⟨items', hitems', hprefix'⟩ := h.stage g' hg'
      rw [hstart'] at hprefix'
      rw [hlength]
      simpa [ChunkFile.length, hitems'] using hprefix'.length_le
    · intro hfirst
      by_cases hnil : longest c = []
      · rw [hnil] at hprefix ⊢
        exact List.prefix_nil.mp hprefix
      · obtain ⟨g, hg, hgs, hgi⟩ := h.stored c hnil
        have hle := hfirst f hfind g hg hgs
        rw [hlength] at hle
        exact hprefix.eq_of_length_le (by simpa [ChunkFile.length, hgi] using hle)

/-- A write of the longest list with new items is the next stage, whatever is removed after. -/
theorem Staged.write (h : Staged longest folder) (os : Os β) {c e : ℤ}
    (new : List (PlayoutItem β)) :
    Staged (Function.update longest c (longest c ++ new)) (removeOtherChunkFiles os
      (writeFile folder (chunkFile c e (longest c ++ new))) (chunkFile c e (longest c ++ new))) := by
  set file := chunkFile c e (longest c ++ new) with hfile
  have hkept : file ∈ removeOtherChunkFiles os (writeFile folder file) file := by
    simp [removeOtherChunkFiles, writeFile]
  have hold : ∀ f ∈ removeOtherChunkFiles os (writeFile folder file) file,
      f = file ∨ f ∈ folder := by
    intro f hf
    rcases List.mem_append.mp (List.mem_filter.mp hf).1 with hf | hf
    · exact Or.inr (List.mem_filter.mp hf).1
    · exact Or.inl (List.mem_singleton.mp hf)
  refine ⟨fun f hf => ?_, fun d hd => ?_⟩
  · rcases hold f hf with rfl | hf
    · refine ⟨longest c ++ new, rfl, ?_⟩
      have hlongest := Function.update_self c (longest c ++ new) longest
      exact ⟨[], (List.append_nil _).trans hlongest.symm⟩
    · obtain ⟨items, hitems, hprefix⟩ := h.stage f hf
      refine ⟨items, hitems, ?_⟩
      by_cases hc : f.start = c
      · rw [hc, Function.update_self]
        rw [hc] at hprefix
        exact hprefix.trans (List.prefix_append _ _)
      · rwa [Function.update_of_ne hc]
  · by_cases hdc : d = c
    · subst hdc
      rw [Function.update_self]
      exact ⟨file, hkept, rfl, rfl⟩
    · rw [Function.update_of_ne hdc] at hd ⊢
      obtain ⟨f, hf, hstart, hitems⟩ := h.stored d hd
      have hne : f.start ≠ file.start := by
        rw [hstart]
        exact hdc
      refine ⟨f, ?_, hstart, hitems⟩
      refine List.mem_filter.mpr ⟨List.mem_append_left _ (List.mem_filter.mpr ⟨hf, ?_⟩), ?_⟩
      · simpa using fun hname => hne (congrArg Prod.fst hname)
      · simp [hne]

/-- A chunk's turn from a folder of stages. -/
theorem Staged.grow (h : Staged longest folder) {c : ℤ} {new : List (PlayoutItem β)}
    {file : ChunkFile β} {folder' : Folder β}
    (hrun : growChunk os grid c new folder = .ok (some (file, folder'))) :
    (file.items = some (longest c ++ new) ↔ LongestFirst os folder c) ∧ file ∈ folder' ∧
      (LongestFirst os folder c →
        Staged (Function.update longest c (longest c ++ new)) folder') := by
  obtain ⟨stored, hread, hiff⟩ := h.read os c
  simp only [growChunk, hread, Lib.ok_bind] at hrun
  split_ifs at hrun with hempty
  · cases hrun
  obtain ⟨rfl, rfl⟩ := Prod.mk.inj (Option.some.inj (Except.ok.inj hrun))
  refine ⟨?_, ?_, fun hfirst => ?_⟩
  · rw [← hiff]
    simp [chunkFile]
  · simp [removeOtherChunkFiles, writeFile]
  · rw [hiff.mpr hfirst]
    exact h.write os new

end Stages

/-- Folders reached by writing chunks in turn, the longest file of the chunk listed first each
time, any removals failing; with the list each chunk has grown to. -/
inductive Grown (grid : ChunkGrid) : (ℤ → List (PlayoutItem β)) → Folder β → Prop
  | empty : Grown grid (fun _ => []) []
  | grow {longest : ℤ → List (PlayoutItem β)} {folder folder' : Folder β} {os : Os β} {c : ℤ}
      {new : List (PlayoutItem β)} {file : ChunkFile β} (h : Grown grid longest folder)
      (hfirst : LongestFirst os folder c)
      (hrun : growChunk os grid c new folder = .ok (some (file, folder'))) :
      Grown grid (Function.update longest c (longest c ++ new)) folder'

theorem Grown.staged {grid : ChunkGrid} {longest : ℤ → List (PlayoutItem β)} {folder : Folder β}
    (h : Grown grid longest folder) : Staged longest folder := by
  induction h with
  | empty => exact ⟨fun f hf => absurd hf List.not_mem_nil, fun c hc => absurd rfl hc⟩
  | grow _ hfirst hrun ih => exact (ih.grow hrun).2.2 hfirst

/-- From every folder of leftovers the next write into a chunk holds the longest stage followed
by the new items exactly when a longest file of the chunk is listed first; and the written file
outlives the removals. -/
theorem leftover_kept_iff {grid : ChunkGrid} {longest : ℤ → List (PlayoutItem β)}
    {folder : Folder β} (h : Grown grid longest folder) {os : Os β} {c : ℤ}
    {new : List (PlayoutItem β)} {file : ChunkFile β} {folder' : Folder β}
    (hrun : growChunk os grid c new folder = .ok (some (file, folder'))) :
    (∀ f ∈ folder, f.start = c → ∃ items, f.items = some items ∧ items <+: longest c) ∧
      (file.items = some (longest c ++ new) ↔ LongestFirst os folder c) ∧ file ∈ folder' := by
  have hstaged := h.staged
  obtain ⟨hiff, hkept, -⟩ := hstaged.grow hrun
  refine ⟨fun f hf hstart => ?_, hiff, hkept⟩
  obtain ⟨items, hitems, hprefix⟩ := hstaged.stage f hf
  exact ⟨items, hitems, hstart ▸ hprefix⟩

def stubbornOs (β : Type) : Os β := { plainOs β with removes := fun _ => false }

/-- The item a rule of clips lays from one hour to another. -/
def airing (id : String) (start finish : ℤ) : PlayoutItem Unit :=
  buildPlayoutItem (clip id 1).1 (start * HOUR) (finish * HOUR)

def firstHour : ChunkFile Unit := ⟨0, 1 * HOUR, some [airing "a" 0 1]⟩

def secondHour : ChunkFile Unit := ⟨0, 2 * HOUR, some [airing "a" 0 1, airing "b" 1 2]⟩

def grownOnce : ℤ → List (PlayoutItem Unit) :=
  Function.update (fun _ => []) 0 ([] ++ [airing "a" 0 1])

theorem leftover_kept_iff_firstHour :
    (∀ f ∈ [firstHour], f.start = 0 → ∃ items, f.items = some items ∧ items <+: grownOnce 0) ∧
      (secondHour.items = some (grownOnce 0 ++ [airing "b" 1 2]) ↔
        LongestFirst (stubbornOs Unit) [firstHour] 0) ∧ secondHour ∈ [firstHour, secondHour] :=
  leftover_kept_iff
    (show Grown sixHours grownOnce [firstHour] from
      .grow .empty (fun f hf => by simp [scanOutputFolder, stubbornOs, plainOs] at hf)
        (show growChunk (stubbornOs Unit) sixHours 0 [airing "a" 0 1] [] =
          .ok (some (firstHour, [firstHour])) from rfl))
    (show growChunk (stubbornOs Unit) sixHours 0 [airing "b" 1 2] [firstHour] =
      .ok (some (secondHour, [firstHour, secondHour])) from rfl)

/-- Two stages are left, and the third generation grows the one listed first: `b` is gone from
the file it writes. -/
theorem stubborn_loses_item :
    emitAll (stubbornOs Unit) sixHours [[clip "a" 1], [clip "b" 1], [clip "c" 1]] 0 [] =
      .ok (3 * HOUR, [firstHour, secondHour, ⟨0, 3 * HOUR, some [airing "a" 0 1, airing "c" 2 3]⟩]) := by
  decide +kernel

end EtvStation
