import EtvStation.Rule
import EtvStation.Lib.Outcome
import Mathlib.Data.List.Sort

/-! The chunk files of an output folder. A generation's items are merged into the file of the
chunk they fall in; a full chunk's file is named to its boundary, a filling one's to the finish
of its last item. -/
namespace EtvStation

/-- A chunk grid: the boundary at or before an instant, and the boundary after one. -/
structure ChunkGrid where
  boundary : ℤ → ℤ
  next : ℤ → ℤ
  boundary_le : ∀ t, boundary t ≤ t
  lt_next : ∀ t, t < next (boundary t)
  boundary_eq : ∀ {t u}, boundary t ≤ u → u < next (boundary t) → boundary u = boundary t

/-- The grid of a zone whose offsets keep it in order. -/
noncomputable def Zone.chunkGrid (z : Zone) (chunkHours : ℕ) (h : ∀ t, z.GridAt chunkHours t) :
    ChunkGrid where
  boundary t := (h t).chunk.choose
  next := z.addChunk chunkHours
  boundary_le t := (h t).chunk.choose_spec.2.1
  lt_next t := (h t).chunk.choose_spec.2.2.1
  boundary_eq {t u} hle hlt :=
    Lib.Lands.unique (h u).chunk.choose_spec.1 ((h t).chunk.choose_spec.2.2.2 u hle hlt)

theorem Zone.chunkGrid_boundaryAt (z : Zone) (chunkHours : ℕ) (h : ∀ t, z.GridAt chunkHours t)
    (t : ℤ) : z.BoundaryAt chunkHours t ((z.chunkGrid chunkHours h).boundary t) :=
  (h t).chunk.choose_spec.1

variable {β : Type}

/-- A playout file: the span its name claims, and its items unless it cannot be read. -/
structure ChunkFile (β : Type) where
  start : ℤ
  finish : ℤ
  items : Option (List (PlayoutItem β))
  deriving DecidableEq, Repr

def ChunkFile.name (f : ChunkFile β) : ℤ × ℤ := (f.start, f.finish)

abbrev Folder (β : Type) := List (ChunkFile β)

/-- What the file system decides: the order it lists a folder in, and which removals succeed. -/
structure Os (β : Type) where
  readDir : Folder β → Folder β
  perm : ∀ folder, (readDir folder).Perm folder
  removes : ChunkFile β → Bool

inductive EmitError where
  | corrupt (name : ℤ × ℤ)
  deriving DecidableEq, Repr

/-- The files of a folder by start, those of one start in the order they were listed. -/
def scanOutputFolder (os : Os β) (folder : Folder β) : Folder β :=
  (os.readDir folder).insertionSort fun a b => a.start ≤ b.start

def readChunkItems (os : Os β) (folder : Folder β) (chunkStart : ℤ) :
    Except EmitError (List (PlayoutItem β)) :=
  match (scanOutputFolder os folder).find? fun f => f.start = chunkStart with
  | none => .ok []
  | some f =>
    match f.items with
    | some items => .ok items
    | none => .error (.corrupt f.name)

def writeFile (folder : Folder β) (file : ChunkFile β) : Folder β :=
  folder.filter (fun f => f.name ≠ file.name) ++ [file]

/-- Remove the other files of the chunk; a removal that fails is let be. -/
def removeOtherChunkFiles (os : Os β) (folder : Folder β) (keep : ChunkFile β) : Folder β :=
  folder.filter fun f => !(f.start = keep.start && f.name ≠ keep.name && os.removes f)

def chunkFile (chunkStart chunkEnd : ℤ) (items : List (PlayoutItem β)) : ChunkFile β where
  start := chunkStart
  finish :=
    let contentEnd := (items.getLast?.map (·.finish)).getD chunkStart
    if contentEnd ≥ chunkEnd then chunkEnd else contentEnd
  items := some items

/-- Lay `rule` from `cursor` to `to_`, chunk by chunk. The fuel is the length of what is left,
of which every chunk takes some. -/
def emitLoop (os : Os β) (grid : ChunkGrid) (rule : Sequential β) (anchor to_ : ℤ) :
    (fuel : ℕ) → ℤ → Folder β → Except EmitError (List (ChunkFile β) × Folder β)
  | 0, _, folder => .ok ([], folder)
  | fuel + 1, cursor, folder =>
    if cursor < to_ then do
      let chunkStart := grid.boundary cursor
      let chunkEnd := grid.next chunkStart
      let stored ← readChunkItems os folder chunkStart
      let items := stored ++ rule.itemsCovering anchor cursor chunkEnd
      if items.isEmpty then return ([], folder)
      else
        let file := chunkFile chunkStart chunkEnd items
        let (written, folder) ← emitLoop os grid rule anchor to_ fuel chunkEnd
          (removeOtherChunkFiles os (writeFile folder file) file)
        return (file :: written, folder)
    else .ok ([], folder)

/-- Write a generation's items into chunk-aligned playout files. -/
def emitWindow (os : Os β) (grid : ChunkGrid) (rule : Sequential β) (anchor from_ to_ : ℤ)
    (folder : Folder β) : Except EmitError (List (ChunkFile β) × Folder β) :=
  emitLoop os grid rule anchor to_ (to_ - from_).toNat from_ folder

namespace ChunkGrid

variable (grid : ChunkGrid)

theorem boundary_boundary (t : ℤ) : grid.boundary (grid.boundary t) = grid.boundary t :=
  grid.boundary_eq le_rfl ((grid.boundary_le t).trans_lt (grid.lt_next t))

theorem boundary_next (t : ℤ) :
    grid.boundary (grid.next (grid.boundary t)) = grid.next (grid.boundary t) := by
  set n := grid.next (grid.boundary t) with hn
  have hlt : grid.boundary t < n := (grid.boundary_le t).trans_lt (grid.lt_next t)
  have hle := grid.boundary_le n
  have hafter := grid.lt_next n
  by_contra hne
  have hback : grid.boundary (n - 1) = grid.boundary n := grid.boundary_eq (by omega) (by omega)
  have hsame : grid.boundary (n - 1) = grid.boundary t := grid.boundary_eq (by omega) (by omega)
  rw [← hback, hsame] at hafter
  omega

/-- Where the last chunk a window up to `to_` reaches into ends. -/
def lastEnd (to_ : ℤ) : ℤ := grid.next (grid.boundary (to_ - 1))

theorem next_boundary_mono {t u : ℤ} (h : t ≤ u) :
    grid.next (grid.boundary t) ≤ grid.next (grid.boundary u) := by
  by_cases hin : u < grid.next (grid.boundary t)
  · rw [grid.boundary_eq ((grid.boundary_le t).trans h) hin]
  · exact (not_lt.mp hin).trans (grid.lt_next u).le

/-- Boundaries are a chunk apart. -/
theorem next_le {b c : ℤ} (hb : grid.boundary b = b) (hc : grid.boundary c = c) (h : b < c) :
    grid.next b ≤ c := by
  by_contra hlt
  have : grid.boundary c = grid.boundary b := grid.boundary_eq (by omega) (by rw [hb]; omega)
  omega

end ChunkGrid

theorem find?_of_unique {α : Type} {l : List α} {p : α → Bool} {a : α} (ha : a ∈ l) (hp : p a)
    (h : ∀ b ∈ l, p b → b = a) : l.find? p = some a := by
  cases hfind : l.find? p with
  | none => exact absurd hp (List.find?_eq_none.mp hfind a ha)
  | some b => rw [h b (List.mem_of_find?_eq_some hfind) (List.find?_some hfind)]

theorem mem_scanOutputFolder (os : Os β) {folder : Folder β} {f : ChunkFile β} :
    f ∈ scanOutputFolder os folder ↔ f ∈ folder :=
  (List.perm_insertionSort _ _).mem_iff.trans (os.perm folder).mem_iff

/-- With one file a chunk, the items read back are those of that file. -/
theorem readChunkItems_of_unique (os : Os β) {folder : Folder β} {f : ChunkFile β}
    {items : List (PlayoutItem β)} (hf : f ∈ folder) (hitems : f.items = some items)
    (h : ∀ g ∈ folder, g.start = f.start → g = f) :
    readChunkItems os folder f.start = .ok items := by
  have hfind : (scanOutputFolder os folder).find? (fun g => g.start = f.start) = some f :=
    find?_of_unique ((mem_scanOutputFolder os).mpr hf) (by simp) fun g hg hstart =>
      h g ((mem_scanOutputFolder os).mp hg) (by simpa using hstart)
  simp only [readChunkItems, hfind, hitems]

theorem readChunkItems_of_none (os : Os β) {folder : Folder β} {chunkStart : ℤ}
    (h : ∀ g ∈ folder, g.start ≠ chunkStart) : readChunkItems os folder chunkStart = .ok [] := by
  have hfind : (scanOutputFolder os folder).find? (fun g => g.start = chunkStart) = none :=
    List.find?_eq_none.mpr fun g hg => by
      simpa using h g ((mem_scanOutputFolder os).mp hg)
  simp only [readChunkItems, hfind]

section Chunks

variable (grid : ChunkGrid)

/-- The laid items that overlap the chunk at `c`. -/
def chunkItems (laid : List (PlayoutItem β)) (c : ℤ) : List (PlayoutItem β) :=
  laid.filter fun a => a.start < grid.next c && c < a.finish

/-- The file the chunk at `c` is to have once `laid` is laid. -/
def fileOf (laid : List (PlayoutItem β)) (c : ℤ) : Option (ChunkFile β) :=
  if chunkItems grid laid c = [] then none
  else some (chunkFile c (grid.next c) (chunkItems grid laid c))

/-- A folder that holds one file a chunk, each with what `laid` says of its chunk. -/
structure Stored (laid : ℤ → List (PlayoutItem β)) (folder : Folder β) : Prop where
  file : ∀ f, f ∈ folder ↔ ∃ c, grid.boundary c = c ∧ fileOf grid (laid c) c = some f
  nodup : folder.Nodup

variable {grid}

theorem fileOf_start {laid : List (PlayoutItem β)} {c : ℤ} {f : ChunkFile β}
    (h : fileOf grid laid c = some f) : f.start = c ∧ f.items = some (chunkItems grid laid c) ∧
      chunkItems grid laid c ≠ [] := by
  unfold fileOf at h
  split_ifs at h with hne
  obtain rfl := Option.some.inj h
  exact ⟨rfl, rfl, hne⟩

/-- One file a chunk. -/
theorem Stored.unique {laid : ℤ → List (PlayoutItem β)} {folder : Folder β}
    (h : Stored grid laid folder) {f g : ChunkFile β} (hf : f ∈ folder) (hg : g ∈ folder)
    (hstart : f.start = g.start) : f = g := by
  obtain ⟨c, -, hc⟩ := (h.file f).mp hf
  obtain ⟨d, -, hd⟩ := (h.file g).mp hg
  obtain rfl : c = d := by
    rw [← (fileOf_start hc).1, ← (fileOf_start hd).1, hstart]
  exact Option.some.inj (hc.symm.trans hd)

theorem Stored.read {laid : ℤ → List (PlayoutItem β)} {folder : Folder β}
    (h : Stored grid laid folder) (os : Os β) {c : ℤ} (hc : grid.boundary c = c) :
    readChunkItems os folder c = .ok (chunkItems grid (laid c) c) := by
  cases hfile : fileOf grid (laid c) c with
  | none =>
    have hnil : chunkItems grid (laid c) c = [] := by
      unfold fileOf at hfile
      split_ifs at hfile with hnil
      exact hnil
    rw [hnil]
    refine readChunkItems_of_none os fun g hg hstart => ?_
    obtain ⟨d, -, hd⟩ := (h.file g).mp hg
    obtain rfl : d = c := (fileOf_start hd).1.symm.trans hstart
    rw [hfile] at hd
    cases hd
  | some f =>
    obtain ⟨hstart, hitems, -⟩ := fileOf_start hfile
    have hf := (h.file f).mpr ⟨c, hc, hfile⟩
    rw [← hstart] at hitems ⊢
    exact readChunkItems_of_unique os hf hitems fun g hg hsame => h.unique hg hf hsame

/-- Writing a chunk's file and removing the others of the chunk leaves the new one alone. -/
theorem mem_written {os : Os β} (hremoves : ∀ f, os.removes f) {folder : Folder β}
    {file f : ChunkFile β} : f ∈ removeOtherChunkFiles os (writeFile folder file) file ↔
      f = file ∨ f ∈ folder ∧ f.start ≠ file.start := by
  simp only [removeOtherChunkFiles, writeFile, List.mem_filter, List.mem_append,
    List.mem_singleton, Bool.not_eq_true', Bool.and_eq_false_iff, decide_eq_false_iff_not,
    hremoves, Bool.true_eq_false, or_false, decide_eq_true_eq, not_not]
  constructor
  · rintro ⟨⟨hf, hname⟩ | rfl, hkeep⟩
    · rcases hkeep with hstart | hsame
      · exact Or.inr ⟨hf, hstart⟩
      · exact absurd hsame hname
    · exact Or.inl rfl
  · rintro (rfl | ⟨hf, hstart⟩)
    · exact ⟨Or.inr rfl, Or.inr rfl⟩
    · refine ⟨Or.inl ⟨hf, fun hname => hstart ?_⟩, Or.inl hstart⟩
      exact congrArg Prod.fst hname

/-- Laying one more chunk. -/
theorem Stored.write {laid : ℤ → List (PlayoutItem β)} {folder : Folder β}
    (h : Stored grid laid folder) (laid' : ℤ → List (PlayoutItem β)) {os : Os β} (hremoves : ∀ f, os.removes f) {c : ℤ}
    (hc : grid.boundary c = c) (hne : chunkItems grid (laid' c) c ≠ [])
    (hother : ∀ d, grid.boundary d = d → d ≠ c → fileOf grid (laid' d) d = fileOf grid (laid d) d) :
    Stored grid laid' (removeOtherChunkFiles os
      (writeFile folder (chunkFile c (grid.next c) (chunkItems grid (laid' c) c)))
      (chunkFile c (grid.next c) (chunkItems grid (laid' c) c))) := by
  set file := chunkFile c (grid.next c) (chunkItems grid (laid' c) c) with hfile
  have hof : fileOf grid (laid' c) c = some file := by rw [fileOf, if_neg hne]
  refine ⟨fun f => ?_, ?_⟩
  · rw [mem_written hremoves, h.file]
    constructor
    · rintro (rfl | ⟨⟨d, hd, hdf⟩, hstart⟩)
      · exact ⟨c, hc, hof⟩
      · refine ⟨d, hd, ?_⟩
        rw [hother d hd (fun hdc => hstart ?_), hdf]
        rw [(fileOf_start hdf).1, hdc]
        rfl
    · rintro ⟨d, hd, hdf⟩
      by_cases hdc : d = c
      · subst hdc
        rw [hof] at hdf
        exact Or.inl (Option.some.inj hdf).symm
      · refine Or.inr ⟨⟨d, hd, (hother d hd hdc).symm.trans hdf⟩, ?_⟩
        rw [(fileOf_start hdf).1]
        exact hdc
  · refine List.Nodup.filter _ (List.Nodup.append (h.nodup.filter _) (List.nodup_singleton _) ?_)
    intro f hf hsame
    obtain rfl := List.mem_singleton.mp hsame
    simp at hf

end Chunks

def Sequential.laid (rule : Sequential β) (start : ℤ) : List (PlayoutItem β) :=
  (rule.itemSpans start).map fun e => buildPlayoutItem e.1 e.2.1 e.2.2

theorem Sequential.laid_covers (rule : Sequential β) (start : ℤ) :
    Covers start (start + rule.walked) (rule.laid start) := by
  induction rule generalizing start with
  | nil => simp [laid, itemSpans, Covers, walked]
  | cons e rule ih =>
    obtain ⟨item, dur⟩ := e
    have htotal : start + dur + walked rule =
        start + walked ((item, dur) :: rule) := by
      simp only [walked, List.map_cons, List.sum_cons]
      push_cast
      ring
    refine ⟨buildPlayoutItem_start _ _ _, ?_, ?_⟩
    · simp
    · have hrest := ih (start + dur)
      rw [htotal] at hrest
      simpa [laid] using hrest

theorem Sequential.laid_pos {rule : Sequential β} (h : ∀ e ∈ rule, 0 < e.2) (start : ℤ) :
    ∀ a ∈ rule.laid start, a.start < a.finish := by
  intro a ha
  obtain ⟨e, he, rfl⟩ := List.mem_map.mp ha
  obtain ⟨-, -, -, dur, hdur, heq⟩ := mem_itemSpans he
  have := h _ hdur
  simp only [buildPlayoutItem_start, buildPlayoutItem_finish]
  omega

/-- One call of `emit_window`: a list that began at `anchor`, written from `from_` to `to_`. -/
structure EmitCall (β : Type) where
  anchor : ℤ
  from_ : ℤ
  to_ : ℤ
  rule : Sequential β

namespace EmitCall

variable (call : EmitCall β)

def ends : ℤ := call.anchor + call.rule.walked

def laid : List (PlayoutItem β) := call.rule.laid call.anchor

/-- What the call writes of its items into the chunk at `c`, and perhaps others of them. -/
def reaches (grid : ChunkGrid) (c : ℤ) : List (PlayoutItem β) :=
  if grid.next c ≤ call.from_ ∨ call.to_ ≤ max c call.from_ then []
  else call.laid.filter fun a => call.from_ < a.finish

end EmitCall

section Window

variable {grid : ChunkGrid}

theorem chunkItems_append (before after : List (PlayoutItem β)) (c : ℤ) :
    chunkItems grid (before ++ after) c = chunkItems grid before c ++ chunkItems grid after c :=
  List.filter_append _ _

theorem Stored.congr {laid laid' : ℤ → List (PlayoutItem β)} {folder : Folder β}
    (h : Stored grid laid folder)
    (heq : ∀ c, grid.boundary c = c → fileOf grid (laid' c) c = fileOf grid (laid c) c) :
    Stored grid laid' folder := by
  refine ⟨fun f => (h.file f).trans (exists_congr fun c => and_congr_right fun hc => ?_), h.nodup⟩
  rw [heq c hc]

theorem stored_nil : Stored grid (fun _ => ([] : List (PlayoutItem β))) [] := by
  refine ⟨fun f => ⟨fun hf => absurd hf List.not_mem_nil, ?_⟩, List.nodup_nil⟩
  intro h
  obtain ⟨c, -, hc⟩ := h
  simp [fileOf, chunkItems] at hc

/-- Moving the cursor to the end of its chunk changes what is due in that chunk alone. -/
theorem next_le_iff {cursor d : ℤ} (hd : grid.boundary d = d)
    (hdc : d ≠ grid.boundary cursor) :
    grid.next d ≤ grid.next (grid.boundary cursor) ↔ grid.next d ≤ cursor := by
  have hc := grid.boundary_boundary cursor
  have hle := grid.boundary_le cursor
  have hlt := grid.lt_next cursor
  constructor
  · intro hdn
    rcases lt_or_gt_of_ne hdc with hbefore | hafter
    · exact (grid.next_le hd hc hbefore).trans hle
    · have := grid.next_le hc hd hafter
      have hlast := grid.lt_next d
      rw [hd] at hlast
      omega
  · intro hdn
    omega

section Call

variable {call : EmitCall β} {before : ℤ → List (PlayoutItem β)}

theorem EmitCall.mem_reaches {c : ℤ} {a : PlayoutItem β} (h : a ∈ call.reaches grid c) :
    a ∈ call.laid ∧ call.from_ < a.finish := by
  unfold reaches at h
  split_ifs at h
  · cases h
  · exact ⟨(List.mem_filter.mp h).1, of_decide_eq_true (List.mem_filter.mp h).2⟩

/-- The items covering a window of the call are those that reach its chunk. -/
theorem EmitCall.covering_chunk {cursor : ℤ} (hle : call.from_ ≤ cursor)
    (hmore : cursor < call.to_) (hcursor : cursor = call.from_ ∨ grid.boundary cursor = cursor) :
    call.rule.itemsCovering call.anchor cursor (grid.next (grid.boundary cursor)) =
      chunkItems grid (call.reaches grid (grid.boundary cursor)) (grid.boundary cursor) := by
  have hlt := grid.lt_next cursor
  have hback := grid.boundary_le cursor
  rw [Sequential.itemsCovering_eq_filter call.rule hlt, reaches, if_neg (by omega), chunkItems,
    List.filter_filter, laid, Sequential.laid, List.filter_map]
  congr 1
  refine List.filter_congr fun e _ => ?_
  simp only [Function.comp, buildPlayoutItem_start, buildPlayoutItem_finish]
  rw [Bool.eq_iff_iff]
  simp only [Bool.and_eq_true, decide_eq_true_eq]
  rcases hcursor with rfl | hcursor
  · omega
  · rw [hcursor]
    omega

/-- Where nothing is left of the call from the cursor on, every chunk has what the call reaches. -/
theorem EmitCall.finished {cursor : ℤ} {folder : Folder β}
    (hdone : ∀ c, grid.boundary c = c → cursor < grid.next c →
      chunkItems grid (call.reaches grid c) c = [])
    (h : Stored grid
      (fun c => if grid.next c ≤ cursor then before c ++ call.reaches grid c else before c) folder) :
    Stored grid (fun c => before c ++ call.reaches grid c) folder := by
  refine h.congr fun c hc => ?_
  by_cases hnext : grid.next c ≤ cursor
  · rw [if_pos hnext]
  · rw [if_neg hnext, fileOf, fileOf, chunkItems_append, hdone c hc (not_le.mp hnext),
      List.append_nil]

/-- The chunks from the end of the window on are not visited. -/
theorem EmitCall.reaches_beyond {cursor : ℤ}
    (hcursor : cursor = call.from_ ∨ grid.boundary cursor = cursor) (hend : call.to_ ≤ cursor)
    {c : ℤ} (hc : grid.boundary c = c) (hnext : cursor < grid.next c) :
    chunkItems grid (call.reaches grid c) c = [] := by
  have hbeyond : call.to_ ≤ max c call.from_ := by
    rcases hcursor with rfl | hb
    · exact hend.trans (le_max_right _ _)
    · refine hend.trans (le_max_of_le_left ?_)
      by_contra hbefore
      have := grid.next_le hc hb (not_le.mp hbefore)
      omega
  rw [EmitCall.reaches, if_pos (Or.inr hbeyond)]
  rfl

/-- A chunk with nothing of the call in it from the cursor on comes after the call's last item. -/
theorem EmitCall.reaches_after {cursor : ℤ} (hjoin : call.anchor ≤ call.from_)
    (hle : call.from_ ≤ cursor) (hmore : cursor < call.to_)
    (hnone : chunkItems grid (call.reaches grid (grid.boundary cursor)) (grid.boundary cursor) = [])
    {c : ℤ} (hc : grid.boundary c = c) (hnext : cursor < grid.next c) :
    chunkItems grid (call.reaches grid c) c = [] := by
  have hcovers := call.rule.laid_covers call.anchor
  have hback := grid.boundary_le cursor
  have hlt := grid.lt_next cursor
  have hended : call.ends ≤ cursor := by
    by_contra hbefore
    obtain ⟨a, ha, hstart, hfinish⟩ := hcovers.exists_at (hjoin.trans hle) (not_le.mp hbefore)
    have hreach : a ∈ call.reaches grid (grid.boundary cursor) := by
      rw [reaches, if_neg (by omega)]
      exact List.mem_filter.mpr ⟨ha, decide_eq_true (by omega)⟩
    have hin : a ∈ chunkItems grid (call.reaches grid (grid.boundary cursor))
        (grid.boundary cursor) := List.mem_filter.mpr ⟨hreach, by
      simp only [Bool.and_eq_true, decide_eq_true_eq]
      omega⟩
    rw [hnone] at hin
    exact List.not_mem_nil hin
  refine List.filter_eq_nil_iff.mpr fun a ha => ?_
  have hover : a.finish ≤ call.ends := (hcovers.mem (mem_reaches ha).1).2.2
  simp only [Bool.and_eq_true, decide_eq_true_eq, not_and, not_lt]
  intro hstart
  by_contra hin
  -- such an item would be in the cursor's own chunk
  have hsame : c = grid.boundary cursor := by
    rw [← hc]
    exact (grid.boundary_eq (by omega) (by rw [hc]; exact hnext)).symm
  subst hsame
  have hmem : a ∈ chunkItems grid (call.reaches grid (grid.boundary cursor))
      (grid.boundary cursor) := List.mem_filter.mpr ⟨ha, by
    simp only [Bool.and_eq_true, decide_eq_true_eq]
    omega⟩
  rw [hnone] at hmem
  exact List.not_mem_nil hmem

/-- A call stores what it reaches behind what was stored. -/
theorem EmitCall.emitLoop_reached {os : Os β} (hremoves : ∀ f, os.removes f)
    (hjoin : call.anchor ≤ call.from_) (fuel : ℕ)
    {cursor : ℤ} {folder : Folder β} (hle : call.from_ ≤ cursor)
    (hcursor : cursor = call.from_ ∨ grid.boundary cursor = cursor)
    (hfuel : (call.to_ - cursor).toNat ≤ fuel)
    (h : Stored grid
      (fun c => if grid.next c ≤ cursor then before c ++ call.reaches grid c else before c) folder) :
    ∃ written folder', emitLoop os grid call.rule call.anchor call.to_ fuel cursor folder =
      .ok (written, folder') ∧
      Stored grid (fun c => before c ++ call.reaches grid c) folder' := by
  induction fuel generalizing cursor folder with
  | zero => exact ⟨[], folder, rfl, EmitCall.finished
      (fun _ => EmitCall.reaches_beyond hcursor (by omega)) h⟩
  | succ fuel ih =>
    rw [emitLoop]
    by_cases hmore : cursor < call.to_
    · rw [if_pos hmore]
      have hc := grid.boundary_boundary cursor
      have hlt := grid.lt_next cursor
      have hback := grid.boundary_le cursor
      have hread := h.read os hc
      rw [if_neg (by omega)] at hread
      have hlaid := call.covering_chunk hle hmore hcursor
      by_cases hempty : chunkItems grid (before (grid.boundary cursor) ++
          call.reaches grid (grid.boundary cursor)) (grid.boundary cursor) = []
      · have hnone := (List.append_eq_nil_iff.mp
          (chunkItems_append (before (grid.boundary cursor)) _ _ ▸ hempty)).2
        refine ⟨[], folder, ?_, EmitCall.finished
          (fun _ => EmitCall.reaches_after hjoin hle hmore hnone) h⟩
        rw [chunkItems_append, ← hlaid] at hempty
        simp only [hread, Lib.ok_bind, List.isEmpty_iff, hempty, if_true]
        rfl
      set c := grid.boundary cursor with hcdef
      have hall : chunkItems grid (before c) c ++
          call.rule.itemsCovering call.anchor cursor (grid.next c) =
          chunkItems grid (before c ++ call.reaches grid c) c := by
        rw [chunkItems_append, hlaid]
      have hstep := h.write
        (fun d => if grid.next d ≤ grid.next c then before d ++ call.reaches grid d else before d)
        hremoves hc (by rwa [if_pos le_rfl])
        (fun d hd hdc => by simp only [hcdef, next_le_iff hd hdc])
      rw [if_pos le_rfl] at hstep
      obtain ⟨written, folder', hrest, hstored⟩ := ih (show call.from_ ≤ grid.next c by omega)
        (Or.inr (grid.boundary_next cursor))
        (show (call.to_ - grid.next c).toNat ≤ fuel by omega) hstep
      refine ⟨chunkFile c (grid.next c) (chunkItems grid (before c ++ call.reaches grid c) c) ::
        written, folder', ?_, hstored⟩
      simp only [hread, hall, Lib.ok_bind, List.isEmpty_iff, hempty, if_false, hrest]
      rfl
    · rw [if_neg hmore]
      exact ⟨[], folder, rfl, EmitCall.finished
        (fun _ => EmitCall.reaches_beyond hcursor (not_lt.mp hmore)) h⟩

end Call

/-- What a list written from its beginning to its end puts into a chunk is the chunk's share of
it. -/
theorem chunkItems_reaches {rule : Sequential β} (hpos : ∀ e ∈ rule, 0 < e.2) (from_ c : ℤ) :
    chunkItems grid ((⟨from_, from_, from_ + rule.walked, rule⟩ : EmitCall β).reaches grid c) c =
      chunkItems grid (rule.laid from_) c := by
  have hafter : ∀ a ∈ rule.laid from_, from_ ≤ a.start ∧ a.start < a.finish := fun a ha =>
    ⟨((rule.laid_covers from_).mem ha).1, Sequential.laid_pos hpos from_ a ha⟩
  unfold EmitCall.reaches
  dsimp only
  split_ifs with hnext
  · refine (List.filter_eq_nil_iff.mpr fun a ha => ?_).symm
    have hin := (rule.laid_covers from_).mem ha
    have := hafter a ha
    simp only [Bool.and_eq_true, decide_eq_true_eq, not_and, not_lt]
    omega
  · have hall : (rule.laid from_).filter (fun a => from_ < a.finish) = rule.laid from_ :=
      List.filter_eq_self.mpr fun a ha =>
        decide_eq_true ((hafter a ha).1.trans_lt (hafter a ha).2)
    exact congrArg (chunkItems grid · c) hall

/-- Laying a generation over what was laid before it stores both, chunk by chunk. -/
theorem emitLoop_stored {rule : Sequential β} {from_ : ℤ} {before : List (PlayoutItem β)} {os : Os β}
    (hremoves : ∀ f, os.removes f) (hpos : ∀ e ∈ rule, 0 < e.2) {fuel : ℕ}
    (hfuel : rule.walked.toNat ≤ fuel) {folder : Folder β}
    (h : Stored grid (fun _ => before) folder) :
    ∃ written folder', emitLoop os grid rule from_ (from_ + rule.walked) fuel from_ folder =
      .ok (written, folder') ∧ Stored grid (fun _ => before ++ rule.laid from_) folder' := by
  set call : EmitCall β := ⟨from_, from_, from_ + rule.walked, rule⟩ with hcall
  have hopens : Stored grid
      (fun c => if grid.next c ≤ from_ then before ++ call.reaches grid c else before) folder := by
    refine h.congr fun c _ => ?_
    split_ifs with hnext
    · rw [EmitCall.reaches, if_pos (Or.inl hnext), List.append_nil]
    · rfl
  have hleft : (call.to_ - from_).toNat ≤ fuel := by simpa [hcall] using hfuel
  obtain ⟨written, folder', hrun, hstored⟩ := EmitCall.emitLoop_reached hremoves
    (show call.anchor ≤ call.from_ from le_rfl) fuel le_rfl (Or.inl rfl) hleft hopens
  refine ⟨written, folder', hrun, hstored.congr fun c _ => ?_⟩
  rw [fileOf, fileOf, chunkItems_append, chunkItems_append, chunkItems_reaches hpos]

end Window

/-- Lay generation after generation, each from where the last one ended. -/
def emitAll (os : Os β) (grid : ChunkGrid) :
    List (Sequential β) → ℤ → Folder β → Except EmitError (ℤ × Folder β)
  | [], from_, folder => .ok (from_, folder)
  | rule :: rules, from_, folder => do
    let to_ := from_ + rule.totalDuration
    let (_, folder) ← emitWindow os grid rule from_ from_ to_ folder
    emitAll os grid rules to_ folder

theorem emitAll_stored {os : Os β} (hremoves : ∀ f, os.removes f) {grid : ChunkGrid}
    {rules : List (Sequential β)} (hpos : ∀ rule ∈ rules, ∀ e ∈ rule, 0 < e.2)
    (hexact : ∀ rule ∈ rules, rule.totalDuration = rule.walked) {from_ : ℤ}
    {before : List (PlayoutItem β)} (hbefore : ∀ a ∈ before, a.finish ≤ from_)
    {folder : Folder β} (h : Stored grid (fun _ => before) folder) :
    ∃ folder', emitAll os grid rules from_ folder =
        .ok (from_ + Sequential.walked rules.flatten, folder') ∧
      Stored grid (fun _ => before ++ Sequential.laid rules.flatten from_) folder' := by
  induction rules generalizing from_ before folder with
  | nil => exact ⟨folder, by simp [emitAll, Sequential.walked], by
      simpa [Sequential.laid, Sequential.itemSpans] using h⟩
  | cons rule rules ih =>
    have hrule := hpos rule List.mem_cons_self
    have hcovers := rule.laid_covers from_
    have hfuel : rule.walked.toNat ≤ (from_ + rule.walked - from_).toNat := by
      rw [add_sub_cancel_left]
    obtain ⟨written, mid, hone, hmid⟩ := emitLoop_stored hremoves hrule hfuel h
    have hended : ∀ a ∈ before ++ rule.laid from_, a.finish ≤ from_ + rule.walked := by
      intro a ha
      rcases List.mem_append.mp ha with ha | ha
      · exact (hbefore a ha).trans hcovers.le
      · exact (hcovers.mem ha).2.2
    obtain ⟨folder', hrest, hstored⟩ := ih (fun r hr => hpos r (List.mem_cons_of_mem _ hr))
      (fun r hr => hexact r (List.mem_cons_of_mem _ hr)) hended hmid
    refine ⟨folder', ?_, ?_⟩
    · simp only [emitAll, emitWindow, hexact rule List.mem_cons_self, hone, Lib.ok_bind, hrest,
        List.flatten_cons, Sequential.walked_append, add_assoc]
    · rw [List.flatten_cons, Sequential.laid, Sequential.itemSpans_append, List.map_append,
        ← List.append_assoc]
      exact hstored

/-- A folder the player's two lookups, a file by its name and then an item in it, can be made
in at every instant of `[s, f)`. -/
structure Playable (grid : ChunkGrid) (laid : List (PlayoutItem β)) (s f : ℤ)
    (folder : Folder β) : Prop where
  /-- Some file's name claims the instant, and of its items exactly the laid one is on then. -/
  lookup : ∀ t, s ≤ t → t < f → ∃ file ∈ folder, file.start ≤ t ∧ t < file.finish ∧
    ∃ items, file.items = some items ∧ ∃ a ∈ items, a ∈ laid ∧ a.start ≤ t ∧ t < a.finish ∧
      ∀ b ∈ items, b.start ≤ t → t < b.finish → b = a
  /-- Every item is in every chunk it overlaps. -/
  whole : ∀ a ∈ laid, ∀ c, grid.boundary c = c → a.start < grid.next c → c < a.finish →
    ∃ file ∈ folder, file.start = c ∧ ∃ items, file.items = some items ∧ a ∈ items
  /-- A file's items are laid ones, in order, end to end, none of them twice. -/
  contiguous : ∀ file ∈ folder, ∃ items, file.items = some items ∧ items.Sublist laid ∧
    (∃ lo hi, Covers lo hi items) ∧ items.Nodup
  /-- One file a chunk. -/
  single : ∀ file ∈ folder, grid.boundary file.start = file.start ∧
    ∀ other ∈ folder, other.start = file.start → other = file
  /-- No name claims an instant its file has nothing for. -/
  honest : ∀ file ∈ folder, ∀ t, file.start ≤ t → t < file.finish →
    ∃ items, file.items = some items ∧ ∃ a ∈ items, a.start ≤ t ∧ t < a.finish

section Playable

variable {grid : ChunkGrid} {laid : List (PlayoutItem β)} {s f : ℤ}

theorem nodup_of_covers {lo hi : ℤ} {items : List (PlayoutItem β)} (h : Covers lo hi items)
    (hpos : ∀ a ∈ items, a.start < a.finish) : items.Nodup :=
  h.pairwise.imp_of_mem fun {a b} ha _ hab heq => by
    have := hpos a ha
    rw [← heq] at hab
    omega

/-- Of the items of a timeline one at most is on at an instant. -/
theorem eq_of_covers {lo hi t : ℤ} {items : List (PlayoutItem β)} (h : Covers lo hi items)
    {a b : PlayoutItem β} (ha : a ∈ items) (hb : b ∈ items) (hat : a.start ≤ t ∧ t < a.finish)
    (hbt : b.start ≤ t ∧ t < b.finish) : b = a := by
  induction items generalizing lo with
  | nil => exact absurd ha List.not_mem_nil
  | cons x items ih =>
    obtain ⟨-, -, hrest⟩ := h
    rcases List.mem_cons.mp ha with rfl | ha'
    · rcases List.mem_cons.mp hb with rfl | hb'
      · rfl
      · have := (hrest.mem hb').1
        omega
    · rcases List.mem_cons.mp hb with rfl | hb'
      · have := (hrest.mem ha').1
        omega
      · exact ih hrest ha' hb'

theorem mem_chunkItems {c : ℤ} {a : PlayoutItem β} :
    a ∈ chunkItems grid laid c ↔ a ∈ laid ∧ a.start < grid.next c ∧ c < a.finish := by
  simp [chunkItems]

theorem chunkItems_covers (grid : ChunkGrid) (h : Covers s f laid) (hpos : ∀ a ∈ laid, a.start < a.finish) (c : ℤ) :
    ∃ lo hi, Covers lo hi (chunkItems grid laid c) := by
  obtain ⟨lo, hi, hcov, -⟩ := h.filter_overlap hpos
  exact ⟨lo, hi, hcov⟩

/-- The name of a chunk's file ends with its last item, or with the chunk. -/
theorem chunkFile_finish {c e : ℤ} {items : List (PlayoutItem β)} {a : PlayoutItem β}
    (ha : items.getLast? = some a) :
    (chunkFile c e items).finish = min a.finish e := by
  simp only [chunkFile, ha, Option.map_some, Option.getD_some]
  split_ifs with h
  · exact (min_eq_right h).symm
  · exact (min_eq_left (by omega)).symm


theorem lt_chunkFile_finish {c e t : ℤ} {lo hi : ℤ} {items : List (PlayoutItem β)}
    (h : Covers lo hi items) (hne : items ≠ []) :
    t < (chunkFile c e items).finish ↔ t < e ∧ t < hi := by
  have hlast : items.getLast? = some (items.getLast hne) := List.getLast?_eq_some_getLast hne
  rw [chunkFile_finish hlast, h.getLast_finish hlast, lt_min_iff, and_comm]

theorem Stored.playable (hcovers : Covers s f laid) (hpos : ∀ a ∈ laid, a.start < a.finish)
    (hs : grid.boundary s = s) {folder : Folder β} (h : Stored grid (fun _ => laid) folder) :
    Playable grid laid s f folder := by
  have hfile : ∀ c, grid.boundary c = c → chunkItems grid laid c ≠ [] →
      chunkFile c (grid.next c) (chunkItems grid laid c) ∈ folder := by
    intro c hc hne
    exact (h.file _).mpr ⟨c, hc, by rw [fileOf, if_neg hne]⟩
  have hback : ∀ file ∈ folder, ∃ c, grid.boundary c = c ∧ chunkItems grid laid c ≠ [] ∧
      file = chunkFile c (grid.next c) (chunkItems grid laid c) := by
    intro file hmem
    obtain ⟨c, hc, hof⟩ := (h.file file).mp hmem
    have hne := (fileOf_start hof).2.2
    rw [fileOf, if_neg hne] at hof
    exact ⟨c, hc, hne, (Option.some.inj hof).symm⟩
  refine ⟨fun t hst htf => ?_, fun a ha c hc hstart hfinish => ?_, fun file hmem => ?_,
    fun file hmem => ⟨?_, fun other hother hstart => h.unique hother hmem hstart⟩,
    fun file hmem t hlo hhi => ?_⟩
  · obtain ⟨a, ha, hat⟩ := hcovers.exists_at hst htf
    have hle := grid.boundary_le t
    have hlt := grid.lt_next t
    have hin : a ∈ chunkItems grid laid (grid.boundary t) :=
      mem_chunkItems.mpr ⟨ha, by omega, by omega⟩
    have hne := List.ne_nil_of_mem hin
    obtain ⟨lo, hi, hcov⟩ := chunkItems_covers grid hcovers hpos (grid.boundary t)
    refine ⟨_, hfile _ (grid.boundary_boundary t) hne, hle, ?_, _, rfl, a, hin, ha, hat.1, hat.2,
      fun b hb hbs hbf => eq_of_covers hcov hin hb hat ⟨hbs, hbf⟩⟩
    rw [lt_chunkFile_finish hcov hne]
    have := (hcov.mem hin).2.2
    omega
  · have hin : a ∈ chunkItems grid laid c := mem_chunkItems.mpr ⟨ha, hstart, hfinish⟩
    exact ⟨_, hfile c hc (List.ne_nil_of_mem hin), rfl, _, rfl, hin⟩
  · obtain ⟨c, hc, hne, rfl⟩ := hback file hmem
    have hcov := chunkItems_covers grid hcovers hpos c
    obtain ⟨lo, hi, hcov'⟩ := hcov
    exact ⟨_, rfl, List.filter_sublist, ⟨lo, hi, hcov'⟩,
      nodup_of_covers hcov' fun a ha => hpos a (mem_chunkItems.mp ha).1⟩
  · obtain ⟨c, hc, -, rfl⟩ := hback file hmem
    exact hc
  · obtain ⟨c, hc, hne, rfl⟩ := hback file hmem
    obtain ⟨lo, hi, hcov⟩ := chunkItems_covers grid hcovers hpos c
    obtain ⟨hte, hthi⟩ := (lt_chunkFile_finish hcov hne).mp hhi
    have hlast : (chunkItems grid laid c).getLast? = some ((chunkItems grid laid c).getLast hne) :=
      List.getLast?_eq_some_getLast hne
    have hfinish := hcov.getLast_finish hlast
    obtain ⟨hmemlast, hstart, -⟩ := mem_chunkItems.mp (List.getLast_mem hne)
    have hbounds := hcovers.mem hmemlast
    have hsc : s ≤ c := by
      by_contra hlt
      have := grid.next_le hc hs (by omega)
      omega
    have hct : c ≤ t := hlo
    obtain ⟨a, ha, hat⟩ := hcovers.exists_at (t := t) (by omega) (by omega)
    exact ⟨_, rfl, a, mem_chunkItems.mpr ⟨ha, by omega, by omega⟩, hat⟩

end Playable

/-- Generations laid end to end from a chunk boundary leave a folder the player can look every
instant up in, where the total each goes on by is what its items come to. -/
theorem emitAll_playable {os : Os β} (hremoves : ∀ f, os.removes f) {grid : ChunkGrid}
    {rules : List (Sequential β)} (hpos : ∀ rule ∈ rules, ∀ e ∈ rule, 0 < e.2)
    (hexact : ∀ rule ∈ rules, rule.totalDuration = rule.walked) {from_ : ℤ}
    (hfrom : grid.boundary from_ = from_) :
    ∃ to_ folder, emitAll os grid rules from_ [] = .ok (to_, folder) ∧
      to_ = from_ + Sequential.walked rules.flatten ∧
      Playable grid (Sequential.laid rules.flatten from_) from_ to_ folder := by
  have hempty : Stored grid (fun _ => ([] : List (PlayoutItem β))) [] := stored_nil
  obtain ⟨folder, hrun, hstored⟩ := emitAll_stored hremoves hpos hexact
    (fun a ha => absurd ha List.not_mem_nil) hempty
  rw [List.nil_append] at hstored
  refine ⟨_, folder, hrun, rfl, hstored.playable (Sequential.laid_covers _ _) ?_ hfrom⟩
  refine Sequential.laid_pos (fun e he => ?_) from_
  obtain ⟨rule, hrule, he⟩ := List.mem_flatten.mp he
  exact hpos rule hrule e he

theorem sixHours_boundary_le (t : ℤ) : t / (6 * HOUR) * (6 * HOUR) ≤ t := by
  simp only [HOUR]
  omega

theorem sixHours_lt_next (t : ℤ) : t < t / (6 * HOUR) * (6 * HOUR) + 6 * HOUR := by
  simp only [HOUR]
  omega

theorem sixHours_boundary_eq {t u : ℤ} (hle : t / (6 * HOUR) * (6 * HOUR) ≤ u)
    (hlt : u < t / (6 * HOUR) * (6 * HOUR) + 6 * HOUR) :
    u / (6 * HOUR) * (6 * HOUR) = t / (6 * HOUR) * (6 * HOUR) := by
  simp only [HOUR] at *
  omega

def sixHours : ChunkGrid where
  boundary t := t / (6 * HOUR) * (6 * HOUR)
  next b := b + 6 * HOUR
  boundary_le := sixHours_boundary_le
  lt_next := sixHours_lt_next
  boundary_eq := sixHours_boundary_eq

/-- A file system that lists a folder as it stands and removes what it is asked to. -/
def plainOs (β : Type) : Os β := ⟨id, fun _ => .refl _, fun _ => true⟩

def clip (id : String) (hours : ℕ) : ResolvedItem Unit × ℕ :=
  (⟨id, 0, .lavfi "color=c=black", none, false, ()⟩, hours * 3600000000000)

theorem emitAll_playable_sixHours : ∃ to_ folder,
    emitAll (plainOs Unit) sixHours [[clip "long" 7, clip "short" 1], [clip "long" 7]] 0 [] =
      .ok (to_, folder) ∧ to_ = 0 + Sequential.walked
        [[clip "long" 7, clip "short" 1], [clip "long" 7]].flatten ∧
      Playable sixHours (Sequential.laid [[clip "long" 7, clip "short" 1], [clip "long" 7]].flatten 0)
        0 to_ folder :=
  emitAll_playable (fun _ => rfl) (by decide) (by decide +kernel) (by decide)

/-- Forty-nine films of just under three hours, and a short after them. -/
def sixDays : List (Sequential Unit) :=
  [List.replicate 49 (⟨"film", 0, .lavfi "color=c=black", none, false, ()⟩, 10485900000000),
    [clip "short" 1]]

/-- In floating point the films come to a nanosecond more than their lengths, and the short begins
that much after the last of them has ended: nothing is on at the instant between. -/
theorem emitAll_hole : (∀ rule ∈ sixDays, ∀ e ∈ rule, 0 < e.2) ∧
    ∃ to_ folder, emitAll (plainOs Unit) sixHours sixDays 0 [] = .ok (to_, folder) ∧
      ∃ t, 0 ≤ t ∧ t < to_ ∧ (∃ file ∈ folder, file.start ≤ t ∧ t < file.finish) ∧
        ∀ file ∈ folder, ∀ a ∈ file.items.getD [], ¬ (a.start ≤ t ∧ t < a.finish) := by
  have hcheck : (emitAll (plainOs Unit) sixHours sixDays 0 []).toOption.any (fun r =>
      513809100000000 < r.1 ∧
      (∃ file ∈ r.2, file.start ≤ 513809100000000 ∧ 513809100000000 < file.finish) ∧
        ∀ file ∈ r.2, ∀ a ∈ file.items.getD [],
          ¬ (a.start ≤ 513809100000000 ∧ 513809100000000 < a.finish)) = true := by
    decide +kernel
  cases hemit : emitAll (plainOs Unit) sixHours sixDays 0 [] with
  | error e =>
    rw [hemit] at hcheck
    cases hcheck
  | ok r =>
    rw [hemit] at hcheck
    obtain ⟨hto, hnamed, hnothing⟩ := of_decide_eq_true hcheck
    exact ⟨by decide +kernel, r.1, r.2, rfl, 513809100000000, by decide, hto, hnamed, hnothing⟩

end EtvStation
