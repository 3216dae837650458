import EtvStation.Emit
import EtvStation.Reconcile

/-! Swap ticks over a channel's files. A swap points the segment's ledger row at the real file
before the one write of the playout file, and a segment may be stored in two files. -/
namespace EtvStation

structure BumperRow where
  entryId : String
  start : ℤ
  source : String
  deriving DecidableEq, Repr

def BumperRow.key (r : BumperRow) : String × ℤ := (r.entryId, r.start)

/-- Whether a row is that of the segment `segment` starting within a second of `start`. -/
def isRowOf (segment : String) (start : ℤ) (key : String × ℤ) : Bool :=
  key.1 = segment && start - SECOND ≤ key.2 && key.2 ≤ start + SECOND

def setBumperSource (rows : List BumperRow) (s : Swapped) : ℕ × List BumperRow :=
  (rows.countP fun r => isRowOf s.segment s.start r.key,
    rows.map fun r => if isRowOf s.segment s.start r.key then { r with source := s.path } else r)

/-- What happens at one file in one tick: whether it can be read, what the clock and the disk
say, which ledger updates fail, and whether the file can be written. -/
structure Attempt where
  reads : Bool
  env : SwapEnv
  refuses : Swapped → Bool
  writes : Bool

/-- Point the segment's rows at the real file; without a row the stand-in is kept. -/
def Attempt.recordSwap (t : Attempt) (s : Swapped) (rows : List BumperRow) :
    Bool × List BumperRow :=
  if t.refuses s then (false, rows)
  else
    match setBumperSource rows s with
    | (0, _) => (false, rows)
    | (_ + 1, rows) => (true, rows)

variable {β : Type}

/-- Swap a file's pending segments, and write it if there were any. -/
def swapPendingFile (t : Attempt) (file : ChunkFile β) (rows : List BumperRow) :
    ChunkFile β × List BumperRow :=
  match file.items with
  | none => (file, rows)
  | some items =>
    if t.reads then
      let (items, swapped, rows) := t.env.swapPendingItems t.recordSwap items rows
      if !swapped.isEmpty && t.writes then ({ file with items := some items }, rows)
      else (file, rows)
    else (file, rows)

/-- One tick over the files, in the order they are scanned. A file that has ended is let be. -/
def swapPendingPlayout (tick : ℤ × ℤ → Attempt) :
    Folder β → List BumperRow → Folder β × List BumperRow
  | [], rows => ([], rows)
  | file :: files, rows =>
    let t := tick file.name
    let (file, rows) := if t.env.now < file.finish then swapPendingFile t file rows else (file, rows)
    let (files, rows) := swapPendingPlayout tick files rows
    (file :: files, rows)

def swapTicks : List (ℤ × ℤ → Attempt) → Folder β → List BumperRow → Folder β × List BumperRow
  | [], files, rows => (files, rows)
  | tick :: ticks, files, rows =>
    let (files, rows) := swapPendingPlayout tick files rows
    swapTicks ticks files rows

def PlayoutItem.file (a : PlayoutItem β) : Option String :=
  match a.source with
  | some (.local_ path _ _) => some path
  | _ => none

/-- A segment whose real file was still to come when it was laid. -/
structure PendingSegment where
  base : String
  segment : String
  start : ℤ
  standIn : String
  path : String

namespace PendingSegment

variable (seg : PendingSegment)

def swap : Swapped := ⟨seg.segment, seg.start, seg.path⟩

/-- Every item of the segment in every file plays what the segment's ledger row names. -/
def Agrees (files : Folder β) (rows : List BumperRow) : Prop :=
  ∀ f ∈ files, ∀ items, f.items = some items → ∀ a ∈ items, a.base = seg.base →
    ∀ path, a.file = some path → ∀ r ∈ rows, isRowOf seg.segment seg.start r.key → r.source = path

/-- The segment has a row, and its rows name `source`. -/
def Named (rows : List BumperRow) (source : String) : Prop :=
  (∃ r ∈ rows, isRowOf seg.segment seg.start r.key) ∧
    ∀ r ∈ rows, isRowOf seg.segment seg.start r.key → r.source = source

/-- Nothing in `items` is still to be swapped for the segment: its items there, if any, play the
real file, and the other pending items share no row with it. -/
def Quiet (keys : List (String × ℤ)) (items : List (PlayoutItem β)) : Prop :=
  ∀ a ∈ items,
    (a.base = seg.base → a.pending = none ∧ ∀ path, a.file = some path → path = seg.path) ∧
      ∀ name, a.pending.isSome → a.segment = some name → ∀ k ∈ keys,
        isRowOf seg.segment seg.start k → isRowOf name a.start k = false

/-- The segment's items as they were laid: one pending run that plays the stand-in. -/
structure StandsIn (run : List (PlayoutItem β)) : Prop where
  base : ∀ a ∈ run, a.base = seg.base
  pending : ∀ a ∈ run, ∃ p, a.pending = some p ∧ p.path = seg.path
  plays : ∀ a ∈ run, ∀ path, a.file = some path → path = seg.standIn
  opens : ∃ a rest, run = a :: rest ∧ a.segment = some seg.segment ∧ a.start = seg.start ∧
    a.file = some seg.standIn

/-- The segment is stored whole in `items`, and nowhere else among them. -/
def Waits (keys : List (String × ℤ)) (items : List (PlayoutItem β)) : Prop :=
  ∃ pre run post, items = pre ++ (run ++ post) ∧ seg.StandsIn run ∧
    (∀ a ∈ pre ++ post, a.base ≠ seg.base) ∧ seg.Quiet keys (pre ++ post)

/-- The tick is to swap the segment in the file: it can be read and has not ended, the real
file has landed in time, and the ledger takes the update. -/
def Tries (tick : ℤ × ℤ → Attempt) (f : ChunkFile β) : Prop :=
  (tick f.name).env.now < f.finish ∧ (tick f.name).reads ∧
    ((tick f.name).env.landedLen seg.path seg.start).isSome ∧ (tick f.name).refuses seg.swap = false

end PendingSegment

section Rows

variable {rows : List BumperRow} {s : Swapped}

theorem setBumperSource_key (rows : List BumperRow) (s : Swapped) :
    (setBumperSource rows s).2.map BumperRow.key = rows.map BumperRow.key := by
  simp only [setBumperSource, List.map_map]
  refine List.map_congr_left fun r _ => ?_
  simp only [Function.comp_apply]
  split_ifs
  · rfl
  · rfl

/-- An update either points the segment's rows at the file, or leaves the ledger as it is. -/
theorem recordSwap_cases (t : Attempt) (s : Swapped) (rows : List BumperRow) :
    (t.recordSwap s rows = (true, (setBumperSource rows s).2) ∧ t.refuses s = false ∧
        ∃ r ∈ rows, isRowOf s.segment s.start r.key) ∨
      t.recordSwap s rows = (false, rows) ∧
        (t.refuses s ∨ ∀ r ∈ rows, isRowOf s.segment s.start r.key = false) := by
  unfold Attempt.recordSwap
  by_cases hrefuses : t.refuses s
  · right
    rw [if_pos hrefuses]
    exact ⟨rfl, Or.inl hrefuses⟩
  · rw [if_neg hrefuses]
    rcases hcount : rows.countP fun r => isRowOf s.segment s.start r.key with _ | n
    · right
      simp only [setBumperSource, hcount, true_and]
      right
      intro r hr
      have := List.countP_eq_zero.mp hcount r hr
      simpa using this
    · left
      simp only [setBumperSource, hcount, true_and]
      refine ⟨by simpa using hrefuses, ?_⟩
      exact List.countP_pos_iff.mp (by omega)

variable {seg : PendingSegment} {source : String}

/-- Another segment's swap leaves the rows of this one. -/
theorem PendingSegment.Named.other (h : seg.Named rows source)
    (hs : ∀ k ∈ rows.map BumperRow.key, isRowOf seg.segment seg.start k →
      isRowOf s.segment s.start k = false) : seg.Named (setBumperSource rows s).2 source := by
  have hkeep : ∀ r ∈ rows, isRowOf seg.segment seg.start r.key →
      isRowOf s.segment s.start r.key = false :=
    fun r hr => hs r.key (List.mem_map_of_mem hr)
  obtain ⟨⟨r, hr, hrow⟩, hsource⟩ := h
  refine ⟨⟨r, ?_, hrow⟩, ?_⟩
  · refine List.mem_map.mpr ⟨r, hr, ?_⟩
    simp [hkeep r hr hrow]
  · intro r' hr' hrow'
    obtain ⟨r, hr, rfl⟩ := List.mem_map.mp hr'
    by_cases hits : isRowOf s.segment s.start r.key
    · rw [if_pos hits] at hrow'
      have := hkeep r hr hrow'
      rw [hits] at this
      cases this
    · rw [if_neg hits] at hrow' ⊢
      exact hsource r hr hrow'

/-- The segment's own swap points its rows at the real file. -/
theorem PendingSegment.Named.own (h : seg.Named rows source) :
    seg.Named (setBumperSource rows seg.swap).2 seg.path := by
  obtain ⟨⟨r, hr, hrow⟩, -⟩ := h
  refine ⟨⟨{ r with source := seg.path }, ?_, hrow⟩, ?_⟩
  · refine List.mem_map.mpr ⟨r, hr, ?_⟩
    have hown : isRowOf seg.swap.segment seg.swap.start r.key := hrow
    rw [if_pos hown]
    rfl
  · intro r' hr' hrow'
    obtain ⟨r, hr, rfl⟩ := List.mem_map.mp hr'
    by_cases hits : isRowOf seg.swap.segment seg.swap.start r.key
    · rw [if_pos hits]
      rfl
    · rw [if_neg hits] at hrow'
      exact absurd hrow' hits

end Rows

section Runs

variable {σ : Type} {env : SwapEnv} {record : Swapped → σ → Bool × σ}

/-- What becomes of one run: it is let be, or its row is updated and it is replaced. -/
theorem swapRun_cases (env : SwapEnv) (record : Swapped → σ → Bool × σ)
    {run : List (PlayoutItem β)} {a z : PlayoutItem β} (ha : run.head? = some a)
    (hz : run.getLast? = some z) (ledger : σ) :
    (env.due a = none ∧ env.swapRun record run ledger = (run, none, ledger)) ∨
      ∃ swap p len, env.due a = some (swap, p, len) ∧
        ((record swap ledger).1 = false ∧
            env.swapRun record run ledger = (run, none, (record swap ledger).2) ∨
          (record swap ledger).1 = true ∧ env.swapRun record run ledger =
            (env.fresh a z.finish p len, some swap, (record swap ledger).2)) := by
  unfold SwapEnv.swapRun
  cases hdue : env.due a with
  | none =>
    left
    simp only [ha, hz, hdue, true_and]
  | some due =>
    obtain ⟨swap, p, len⟩ := due
    refine Or.inr ⟨swap, p, len, rfl, ?_⟩
    rcases hrecord : record swap ledger with ⟨_ | _, ledger'⟩
    · simp [ha, hz, hdue, hrecord]
    · simp [ha, hz, hdue, hrecord]

theorem swapRuns_append (env : SwapEnv) (record : Swapped → σ → Bool × σ)
    (runs runs' : List (List (PlayoutItem β))) (ledger : σ) :
    env.swapRuns record (runs ++ runs') ledger =
      let one := env.swapRuns record runs ledger
      let two := env.swapRuns record runs' one.2.2
      (one.1 ++ two.1, one.2.1 ++ two.2.1, two.2.2) := by
  induction runs generalizing ledger with
  | nil => rfl
  | cons run runs ih => simp only [List.cons_append, SwapEnv.swapRuns, ih, List.append_assoc]

/-- Items that do not join fall in different runs. -/
theorem runsOf_append {l m : List (PlayoutItem β)}
    (h : ∀ a b, l.getLast? = some a → m.head? = some b → a.joins b = false) :
    runsOf (l ++ m) = runsOf l ++ runsOf m := by
  induction l with
  | nil => rfl
  | cons a l ih =>
    cases l with
    | nil =>
      cases m with
      | nil => rfl
      | cons b m =>
        obtain ⟨run, runs, hruns⟩ := runsOf_cons b m
        have hjoin := h a b rfl rfl
        show runsOf (a :: b :: m) = [a] :: runsOf (b :: m)
        rw [runsOf_cons_cons hruns, if_neg (by simp [hjoin]), hruns]
    | cons b l =>
      obtain ⟨run, runs, hruns⟩ := runsOf_cons b l
      have hrest := ih fun x y hx hy => h x y (by rw [List.getLast?_cons_cons, hx]) hy
      rw [hruns, List.cons_append] at hrest
      rw [List.cons_append, List.cons_append, runsOf_cons_cons hrest, runsOf_cons_cons hruns]
      split_ifs
      · rfl
      · rfl

theorem runsOf_of_joined {run : List (PlayoutItem β)} (hne : run ≠ [])
    (h : ∀ a ∈ run, ∀ b ∈ run, a.joins b) : runsOf run = [run] := by
  induction run with
  | nil => exact absurd rfl hne
  | cons a run ih =>
    cases run with
    | nil => rfl
    | cons b run =>
      have hrest := ih (List.cons_ne_nil _ _) fun c hc d hd =>
        h c (List.mem_cons_of_mem _ hc) d (List.mem_cons_of_mem _ hd)
      rw [runsOf_cons_cons hrest,
        if_pos (h a List.mem_cons_self b (List.mem_cons_of_mem _ List.mem_cons_self))]

theorem swapPendingItems_append (env : SwapEnv) (record : Swapped → σ → Bool × σ)
    {l m : List (PlayoutItem β)}
    (h : ∀ a b, l.getLast? = some a → m.head? = some b → a.joins b = false) (ledger : σ) :
    env.swapPendingItems record (l ++ m) ledger =
      ((env.swapPendingItems record l ledger).1 ++
          (env.swapPendingItems record m (env.swapPendingItems record l ledger).2.2).1,
        (env.swapPendingItems record l ledger).2.1 ++
          (env.swapPendingItems record m (env.swapPendingItems record l ledger).2.2).2.1,
        (env.swapPendingItems record m (env.swapPendingItems record l ledger).2.2).2.2) := by
  simp only [SwapEnv.swapPendingItems, runsOf_append h, swapRuns_append]

theorem swapPendingItems_run (env : SwapEnv) (record : Swapped → σ → Bool × σ)
    {run : List (PlayoutItem β)} (hne : run ≠ []) (h : ∀ a ∈ run, ∀ b ∈ run, a.joins b)
    (ledger : σ) : env.swapPendingItems record run ledger =
      ((env.swapRun record run ledger).1, (env.swapRun record run ledger).2.1.toList,
        (env.swapRun record run ledger).2.2) := by
  simp only [SwapEnv.swapPendingItems, runsOf_of_joined hne h, SwapEnv.swapRuns, List.append_nil]

end Runs

section Bases

theorem base_eq {id : String} {base suffix : List Char} (hid : id.toList = base ++ suffix)
    (hbase : ∀ c ∈ base, c ≠ '#') (hsuffix : ∀ c, suffix.head? = some c → c = '#') :
    String.ofList (id.toList.takeWhile (· ≠ '#')) = String.ofList base := by
  rw [hid, List.takeWhile_append_of_pos (by simpa using hbase)]
  cases suffix with
  | nil => simp
  | cons c suffix =>
    have := hsuffix c rfl
    simp [this]

theorem base_chars (a : PlayoutItem β) : ∀ c ∈ a.base.toList, c ≠ '#' := by
  intro c hc
  simp only [PlayoutItem.base, String.toList_ofList] at hc
  simpa using (List.all_eq_true.mp List.all_takeWhile) c hc

/-- The ids of a span laid for `base`. -/
def IsIdOf (base : String) (id : String) : Prop :=
  ∃ suffix : List Char, id.toList = base.toList ++ suffix ∧
    ∀ c, suffix.head? = some c → c = '#'

theorem pushParts_spans (id path : String) (inMs n : ℕ) (start : ℤ) (lens : List ℕ) :
    ∀ s ∈ pushParts id path inMs n start lens, IsIdOf id s.id ∧
      ∃ lo hi, s.source = .local_ path lo hi := by
  induction lens generalizing n start with
  | nil => simp [pushParts]
  | cons len lens ih =>
    intro s hs
    rcases List.mem_cons.mp hs with rfl | hs
    · refine ⟨⟨'#' :: (toString n).toList, ?_, by simp⟩, _, _, rfl⟩
      simp [String.toList_append, toString]
    · exact ih _ _ s hs

theorem pushLocalPadded_spans (lenMs : String → Option ℕ) (id path : String) (inMs : ℕ)
    (start : ℤ) (durationMs : ℕ) : ∀ s ∈ pushLocalPadded lenMs id path inMs start durationMs,
      IsIdOf id s.id ∧ ((∃ lo hi, s.source = .local_ path lo hi) ∨
        s.source = .lavfi "color=c=black") := by
  intro s hs
  have hself : IsIdOf id id := ⟨[], by simp, by simp⟩
  obtain ⟨fileMs, hspans⟩ : ∃ fileMs : ℕ,
      pushLocalPadded lenMs id path inMs start durationMs =
        (if 0 < fileMs then [⟨id, start, start + fileMs * MILLISECOND,
          .local_ path (some inMs) (some (inMs + fileMs))⟩] else []) ++
        if fileMs < durationMs then
          [⟨if fileMs = 0 then id else id ++ "#pad",
            if 0 < fileMs then start + fileMs * MILLISECOND else start,
            start + durationMs * MILLISECOND, .lavfi "color=c=black"⟩] else [] := ⟨_, rfl⟩
  rw [hspans] at hs
  rcases List.mem_append.mp hs with hs | hs
  · by_cases hplays : 0 < fileMs
    · rw [if_pos hplays] at hs
      obtain rfl := List.mem_singleton.mp hs
      exact ⟨hself, Or.inl ⟨_, _, rfl⟩⟩
    · rw [if_neg hplays] at hs
      exact absurd hs List.not_mem_nil
  · by_cases hpad : fileMs < durationMs
    · rw [if_pos hpad] at hs
      obtain rfl := List.mem_singleton.mp hs
      refine ⟨?_, Or.inr rfl⟩
      show IsIdOf id (if fileMs = 0 then id else id ++ "#pad")
      split_ifs
      · exact hself
      · exact ⟨"#pad".toList, String.toList_append .., by simp⟩
    · rw [if_neg hpad] at hs
      exact absurd hs List.not_mem_nil

/-- What a swap lays keeps the segment's base, is not pending, and plays the real file or
black. -/
theorem SwapEnv.fresh_spans (env : SwapEnv) (a : PlayoutItem β) (finish : ℤ) (p : Pending)
    (len : ℕ) : ∀ b ∈ env.fresh a finish p len, b.base = a.base ∧ b.pending = none ∧
      ∀ path, b.file = some path → path = p.path := by
  intro b hb
  obtain ⟨new, hnew, rfl⟩ := List.mem_map.mp hb
  have hspan : IsIdOf a.base new.id ∧ ((∃ lo hi, new.source = .local_ p.path lo hi) ∨
      new.source = .lavfi "color=c=black") := by
    unfold pushLocalSpan at hnew
    split_ifs at hnew
    · have := pushParts_spans _ _ _ _ _ _ new hnew
      exact ⟨this.1, Or.inl this.2⟩
    · exact pushLocalPadded_spans _ _ _ _ _ _ new hnew
  obtain ⟨⟨suffix, hid, hsuffix⟩, hsource⟩ := hspan
  refine ⟨?_, rfl, ?_⟩
  · have := base_eq hid (base_chars a) hsuffix
    rw [String.ofList_toList] at this
    exact this
  · intro path hpath
    rcases hsource with ⟨lo, hi, hsource⟩ | hsource
    · simp only [PlayoutItem.file, hsource, Option.some.injEq] at hpath
      exact hpath.symm
    · simp [PlayoutItem.file, hsource] at hpath

end Bases

namespace PendingSegment

variable {seg : PendingSegment} {rows : List BumperRow} {source : String}

theorem quiet_append {keys : List (String × ℤ)} {l m : List (PlayoutItem β)} :
    seg.Quiet keys (l ++ m) ↔ seg.Quiet keys l ∧ seg.Quiet keys m :=
  List.forall_mem_append

/-- What one run's turn leaves of a segment that is not in the run. -/
structure Passed (seg : PendingSegment) (rows : List BumperRow) (source : String)
    (items : List (PlayoutItem β)) (rows' : List BumperRow) (out : List (PlayoutItem β)) : Prop where
  named : seg.Named rows' source
  keys : rows'.map BumperRow.key = rows.map BumperRow.key
  quiet : seg.Quiet (rows.map BumperRow.key) out
  bases : ∀ b ∈ out, ∃ a ∈ items, b.base = a.base

theorem Quiet.swapRun (t : Attempt) {run : List (PlayoutItem β)} (hne : run ≠ [])
    (h : seg.Quiet (rows.map BumperRow.key) run) (hnamed : seg.Named rows source) :
    seg.Passed rows source run (t.env.swapRun t.recordSwap run rows).2.2
      (t.env.swapRun t.recordSwap run rows).1 := by
  obtain ⟨a, z, ha, hz⟩ := exists_ends hne
  have hkept : seg.Passed rows source run rows run :=
    ⟨hnamed, rfl, h, fun b hb => ⟨b, hb, rfl⟩⟩
  rcases swapRun_cases t.env t.recordSwap ha hz rows with
    ⟨-, heq⟩ | ⟨swap, p, len, hdue, ⟨hrecord, heq⟩ | ⟨hrecord, heq⟩⟩
  · rw [heq]
    exact hkept
  · rcases recordSwap_cases t swap rows with ⟨hone, -⟩ | ⟨hone, -⟩
    · rw [hone] at hrecord
      cases hrecord
    · rw [heq, hone]
      exact hkept
  · rcases recordSwap_cases t swap rows with ⟨hone, -⟩ | ⟨hone, -⟩
    · have hmem : a ∈ run := List.mem_of_head? ha
      obtain ⟨hpending, -, hstart, -, hsegment⟩ := SwapEnv.due_eq_some hdue
      have hother := (h a hmem).2 swap.segment (by simp [hpending]) hsegment
      rw [← hstart] at hother
      rw [heq, hone]
      refine ⟨hnamed.other hother, setBumperSource_key rows swap, fun b hb => ?_, fun b hb => ?_⟩
      · obtain ⟨hbase, hfree, -⟩ := t.env.fresh_spans a z.finish p len b hb
        refine ⟨fun hseg => ?_, fun name hsome => ?_⟩
        · have := ((h a hmem).1 (hbase.symm.trans hseg)).1
          rw [hpending] at this
          cases this
        · rw [hfree] at hsome
          cases hsome
      · exact ⟨a, hmem, (t.env.fresh_spans a z.finish p len b hb).1⟩
    · rw [hone] at hrecord
      cases hrecord

/-- A tick over runs that hold nothing to be swapped for a segment leaves it alone. -/
theorem Quiet.swapRuns (t : Attempt) {runs : List (List (PlayoutItem β))}
    (hne : ∀ run ∈ runs, run ≠ []) (h : seg.Quiet (rows.map BumperRow.key) runs.flatten)
    (hnamed : seg.Named rows source) :
    seg.Passed rows source runs.flatten (t.env.swapRuns t.recordSwap runs rows).2.2
      (t.env.swapRuns t.recordSwap runs rows).1 := by
  induction runs generalizing rows with
  | nil => exact ⟨hnamed, rfl, h, fun b hb => absurd hb List.not_mem_nil⟩
  | cons run runs ih =>
    rw [List.flatten_cons, quiet_append] at h
    have hone := Quiet.swapRun t (hne run List.mem_cons_self) h.1 hnamed
    have hrest := ih (fun r hr => hne r (List.mem_cons_of_mem _ hr))
      (by rw [hone.keys]; exact h.2) hone.named
    have hquiet := hrest.quiet
    rw [hone.keys] at hquiet
    simp only [SwapEnv.swapRuns]
    refine ⟨hrest.named, hrest.keys.trans hone.keys, quiet_append.mpr ⟨hone.quiet, hquiet⟩, ?_⟩
    intro b hb
    rcases List.mem_append.mp hb with hb | hb
    · obtain ⟨a, ha, hbase⟩ := hone.bases b hb
      exact ⟨a, List.mem_append_left _ ha, hbase⟩
    · obtain ⟨a, ha, hbase⟩ := hrest.bases b hb
      exact ⟨a, List.mem_append_right _ ha, hbase⟩

theorem Quiet.swapPendingItems (t : Attempt) {items : List (PlayoutItem β)}
    (h : seg.Quiet (rows.map BumperRow.key) items) (hnamed : seg.Named rows source) :
    seg.Passed rows source items (t.env.swapPendingItems t.recordSwap items rows).2.2
      (t.env.swapPendingItems t.recordSwap items rows).1 := by
  have hflat : seg.Quiet (rows.map BumperRow.key) (runsOf items).flatten := by
    rwa [flatten_runsOf]
  have hruns := hflat.swapRuns t (fun run hrun => (runsOf_chain hrun).1) hnamed
  rwa [flatten_runsOf] at hruns

/-- The segment's own run: swapped when the tick is to swap it, and let be otherwise. -/
theorem StandsIn.swapRun (t : Attempt) {run : List (PlayoutItem β)} (h : seg.StandsIn run)
    (hnamed : seg.Named rows source) :
    if (t.env.landedLen seg.path seg.start).isSome ∧ t.refuses seg.swap = false then
      (t.env.swapRun t.recordSwap run rows).2.1 = some seg.swap ∧
        (t.env.swapRun t.recordSwap run rows).2.2 = (setBumperSource rows seg.swap).2 ∧
        ∀ b ∈ (t.env.swapRun t.recordSwap run rows).1, b.base = seg.base ∧ b.pending = none ∧
          ∀ path, b.file = some path → path = seg.path
    else t.env.swapRun t.recordSwap run rows = (run, none, rows) := by
  obtain ⟨a, rest, hrun, hsegment, hstart, -⟩ := h.opens
  have ha : run.head? = some a := by rw [hrun]; rfl
  have hmem : a ∈ run := List.mem_of_head? ha
  obtain ⟨z, hz⟩ : ∃ z, run.getLast? = some z :=
    ⟨_, List.getLast?_eq_some_getLast (List.ne_nil_of_mem hmem)⟩
  obtain ⟨p, hp, hpath⟩ := h.pending a hmem
  have hdue : t.env.due a = (t.env.landedLen seg.path seg.start).map fun len =>
      (seg.swap, p, len) := by
    unfold SwapEnv.due
    rw [hp, hsegment, hstart]
    cases hlen : t.env.landedLen seg.path seg.start with
    | none => simp [hpath, hlen]
    | some len => simp [hpath, hlen, PendingSegment.swap]
  rcases swapRun_cases t.env t.recordSwap ha hz rows with
    ⟨hnone, heq⟩ | ⟨swap, q, len, hsome, hcases⟩
  · rw [hdue, Option.map_eq_none_iff] at hnone
    rw [if_neg (by simp [hnone])]
    exact heq
  · rw [hdue, Option.map_eq_some_iff] at hsome
    obtain ⟨l, hlen, hthis⟩ := hsome
    obtain ⟨rfl, rfl, rfl⟩ : seg.swap = swap ∧ p = q ∧ l = len := by simpa using hthis
    rcases hcases with ⟨hrecord, heq⟩ | ⟨hrecord, heq⟩
    · rcases recordSwap_cases t seg.swap rows with ⟨hone, -⟩ | ⟨hone, hwhy⟩
      · rw [hone] at hrecord
        cases hrecord
      · rcases hwhy with hrefuses | hnorow
        · rw [if_neg (by simp [hrefuses]), heq, hone]
        · obtain ⟨⟨r, hr, hrow⟩, -⟩ := hnamed
          have := hnorow r hr
          rw [show isRowOf seg.swap.segment seg.swap.start r.key = true from hrow] at this
          cases this
    · rcases recordSwap_cases t seg.swap rows with ⟨hone, hrefuses, -⟩ | ⟨hone, -⟩
      · rw [if_pos ⟨by simp [hlen], hrefuses⟩, heq, hone]
        refine ⟨rfl, rfl, fun b hb => ?_⟩
        obtain ⟨hbase, hfree, hplays⟩ := t.env.fresh_spans a z.finish p l b hb
        refine ⟨hbase.trans (h.base a hmem), hfree, fun path hfile => ?_⟩
        rw [hplays path hfile, hpath]
      · rw [hone] at hrecord
        cases hrecord

theorem StandsIn.joined {run : List (PlayoutItem β)} (h : seg.StandsIn run) :
    ∀ a ∈ run, ∀ b ∈ run, a.joins b := by
  intro a ha b hb
  obtain ⟨p, hp, hpath⟩ := h.pending a ha
  obtain ⟨q, hq, hpath'⟩ := h.pending b hb
  simp [PlayoutItem.joins, hp, hq, hpath, hpath', h.base a ha, h.base b hb]

theorem joins_of_base {a b : PlayoutItem β} (h : a.base ≠ b.base) : a.joins b = false := by
  unfold PlayoutItem.joins
  split
  · simp [h]
  · rfl

/-- What a tick makes of the items of a file that has the segment still to be swapped: all of
it is swapped, or nothing of it. -/
theorem Waits.swapPendingItems (t : Attempt) {items : List (PlayoutItem β)}
    (h : seg.Waits (rows.map BumperRow.key) items) (hnamed : seg.Named rows source) :
    let o := t.env.swapPendingItems t.recordSwap items rows
    o.2.2.map BumperRow.key = rows.map BumperRow.key ∧
      if (t.env.landedLen seg.path seg.start).isSome ∧ t.refuses seg.swap = false then
        seg.Named o.2.2 seg.path ∧ o.2.1 ≠ [] ∧ seg.Quiet (rows.map BumperRow.key) o.1
      else seg.Named o.2.2 source ∧ seg.Waits (rows.map BumperRow.key) o.1 := by
  obtain ⟨pre, run, post, rfl, hrun, hother, hquiet⟩ := h
  rw [quiet_append] at hquiet
  have hpre : ∀ a ∈ pre, a.base ≠ seg.base := fun a ha => hother a (List.mem_append_left _ ha)
  have hpost : ∀ a ∈ post, a.base ≠ seg.base := fun a ha => hother a (List.mem_append_right _ ha)
  have hne : run ≠ [] := by
    obtain ⟨a, rest, rfl, -⟩ := hrun.opens
    exact List.cons_ne_nil _ _
  have hafter : ∀ a b, run.getLast? = some a → post.head? = some b → a.joins b = false := by
    intro a b ha hb
    have hbase := hpost b (List.mem_of_head? hb)
    rw [← hrun.base a (List.mem_of_getLast? ha)] at hbase
    exact joins_of_base hbase.symm
  have hbefore : ∀ a b, pre.getLast? = some a → (run ++ post).head? = some b →
      a.joins b = false := by
    intro a b ha hb
    rw [List.head?_append_of_ne_nil _ hne] at hb
    have hbase := hpre a (List.mem_of_getLast? ha)
    rw [← hrun.base b (List.mem_of_head? hb)] at hbase
    exact joins_of_base hbase
  rw [swapPendingItems_append _ _ hbefore, swapPendingItems_append _ _ hafter,
    swapPendingItems_run _ _ hne hrun.joined]
  have hone := hquiet.1.swapPendingItems t hnamed
  generalize t.env.swapPendingItems t.recordSwap pre rows = one at *
  have hmiddle := hrun.swapRun t hone.named
  generalize t.env.swapRun t.recordSwap run one.2.2 = two at *
  have hquiet' : seg.Quiet (two.2.2.map BumperRow.key) post := by
    have hkeys : two.2.2.map BumperRow.key = rows.map BumperRow.key := by
      split_ifs at hmiddle
      · rw [hmiddle.2.1, setBumperSource_key, hone.keys]
      · rw [hmiddle, hone.keys]
    rw [hkeys]
    exact hquiet.2
  split_ifs at hmiddle ⊢ with hswaps
  · obtain ⟨hswap, hrows, hfresh⟩ := hmiddle
    have hnamed' : seg.Named two.2.2 seg.path := by
      rw [hrows]
      exact hone.named.own
    have hthree := hquiet'.swapPendingItems t hnamed'
    generalize t.env.swapPendingItems t.recordSwap post two.2.2 = three at *
    have hkeys : two.2.2.map BumperRow.key = rows.map BumperRow.key := by
      rw [hrows, setBumperSource_key, hone.keys]
    refine ⟨hthree.keys.trans hkeys, hthree.named, by simp [hswap], ?_⟩
    refine quiet_append.mpr ⟨hone.quiet, quiet_append.mpr ⟨fun b hb => ?_, ?_⟩⟩
    · obtain ⟨-, hfree, hplays⟩ := hfresh b hb
      exact ⟨fun _ => ⟨hfree, hplays⟩, fun name hsome => by simp [hfree] at hsome⟩
    · rw [← hkeys]
      exact hthree.quiet
  · rw [hmiddle] at hquiet' ⊢
    have hthree := hquiet'.swapPendingItems t hone.named
    generalize t.env.swapPendingItems t.recordSwap post one.2.2 = three at *
    refine ⟨hthree.keys.trans hone.keys, hthree.named, one.1, run, three.1, rfl, hrun, ?_, ?_⟩
    · intro b hb
      rcases List.mem_append.mp hb with hb | hb
      · obtain ⟨a, ha, hbase⟩ := hone.bases b hb
        rw [hbase]
        exact hpre a ha
      · obtain ⟨a, ha, hbase⟩ := hthree.bases b hb
        rw [hbase]
        exact hpost a ha
    · refine quiet_append.mpr ⟨hone.quiet, ?_⟩
      rw [← hone.keys]
      exact hthree.quiet

def WaitsIn (seg : PendingSegment) (keys : List (String × ℤ)) (f : ChunkFile β) : Prop :=
  ∃ items, f.items = some items ∧ seg.Waits keys items

def QuietIn (seg : PendingSegment) (keys : List (String × ℤ)) (f : ChunkFile β) : Prop :=
  ∀ items, f.items = some items → seg.Quiet keys items

def AbsentIn (seg : PendingSegment) (f : ChunkFile β) : Prop :=
  ∀ items, f.items = some items → ∀ a ∈ items, a.base ≠ seg.base

structure Became (seg : PendingSegment) (keys : List (String × ℤ)) (tick : ℤ × ℤ → Attempt)
    (f f' : ChunkFile β) : Prop where
  name : f'.name = f.name
  quiet : seg.QuietIn keys f → seg.QuietIn keys f'
  absent : seg.QuietIn keys f → seg.AbsentIn f → seg.AbsentIn f'
  landed : seg.WaitsIn keys f → seg.Tries tick f → (tick f.name).writes → seg.QuietIn keys f'
  waits : seg.WaitsIn keys f → ¬ (seg.Tries tick f ∧ (tick f.name).writes) →
    seg.WaitsIn keys f'

/-- Nothing is at once still to be swapped and not. -/
theorem WaitsIn.not_quiet {keys : List (String × ℤ)} {f : ChunkFile β}
    (h : seg.WaitsIn keys f) : ¬ seg.QuietIn keys f := by
  intro hquiet
  obtain ⟨items, hitems, pre, run, post, rfl, hrun, -⟩ := h
  obtain ⟨a, rest, rfl, -⟩ := hrun.opens
  have hmem : a ∈ pre ++ (a :: rest ++ post) := by simp
  have hnone := ((hquiet _ hitems a hmem).1 (hrun.base a List.mem_cons_self)).1
  obtain ⟨p, hp, -⟩ := hrun.pending a List.mem_cons_self
  rw [hp] at hnone
  cases hnone

theorem Became.refl_of {keys : List (String × ℤ)} {tick : ℤ × ℤ → Attempt} {f : ChunkFile β}
    (h : seg.WaitsIn keys f → ¬ (seg.Tries tick f ∧ (tick f.name).writes)) :
    seg.Became keys tick f f :=
  ⟨rfl, id, fun _ => id, fun hw ht hwrites => absurd ⟨ht, hwrites⟩ (h hw), fun hw _ => hw⟩

def turn (tick : ℤ × ℤ → Attempt) (f : ChunkFile β) (rows : List BumperRow) :
    ChunkFile β × List BumperRow :=
  if (tick f.name).env.now < f.finish then swapPendingFile (tick f.name) f rows else (f, rows)

theorem turn_became (tick : ℤ × ℤ → Attempt) {f : ChunkFile β}
    (h : seg.WaitsIn (rows.map BumperRow.key) f ∨ seg.QuietIn (rows.map BumperRow.key) f)
    (hnamed : seg.Named rows source) :
    seg.Became (rows.map BumperRow.key) tick f (turn tick f rows).1 ∧
      (turn tick f rows).2.map BumperRow.key = rows.map BumperRow.key ∧
      (seg.WaitsIn (rows.map BumperRow.key) f ∧ seg.Tries tick f →
        seg.Named (turn tick f rows).2 seg.path) ∧
      (¬ (seg.WaitsIn (rows.map BumperRow.key) f ∧ seg.Tries tick f) →
        seg.Named (turn tick f rows).2 source) := by
  have hstill : ¬ ((tick f.name).env.now < f.finish ∧ (tick f.name).reads = true) →
      turn tick f rows = (f, rows) := by
    intro hnot
    unfold turn swapPendingFile
    by_cases hnow : (tick f.name).env.now < f.finish
    · rw [if_pos hnow]
      cases f.items with
      | none => rfl
      | some items => exact if_neg fun hreads => hnot ⟨hnow, hreads⟩
    · rw [if_neg hnow]
  by_cases hactive : (tick f.name).env.now < f.finish ∧ (tick f.name).reads = true
  · cases hitems : f.items with
    | none =>
      have hsame : turn tick f rows = (f, rows) := by
        unfold turn swapPendingFile
        rw [if_pos hactive.1, hitems]
      have hnot : ¬ seg.WaitsIn (rows.map BumperRow.key) f := by
        rintro ⟨items, hsome, -⟩
        rw [hitems] at hsome
        cases hsome
      rw [hsame]
      exact ⟨.refl_of fun hw => absurd hw hnot, rfl, fun hw => absurd hw.1 hnot, fun _ => hnamed⟩
    | some items =>
      have hturn : turn tick f rows =
          let o := (tick f.name).env.swapPendingItems (tick f.name).recordSwap items rows
          if !o.2.1.isEmpty && (tick f.name).writes then ({ f with items := some o.1 }, o.2.2)
          else (f, o.2.2) := by
        unfold turn swapPendingFile
        rw [if_pos hactive.1, hitems]
        exact if_pos hactive.2
      rw [hturn]
      rcases h with hw | hquiet
      · have hwaits : seg.Waits (rows.map BumperRow.key) items := by
          obtain ⟨items', hsome, hwaits⟩ := hw
          rw [hitems] at hsome
          obtain rfl := Option.some.inj hsome
          exact hwaits
        obtain ⟨hkeys, hswap⟩ := hwaits.swapPendingItems (tick f.name) hnamed
        generalize (tick f.name).env.swapPendingItems (tick f.name).recordSwap items rows = o at *
        have htries : seg.Tries tick f ↔ ((tick f.name).env.landedLen seg.path seg.start).isSome ∧
            (tick f.name).refuses seg.swap = false :=
          ⟨fun h => h.2.2, fun h => ⟨hactive.1, hactive.2, h⟩⟩
        by_cases htry : seg.Tries tick f
        · rw [if_pos (htries.mp htry)] at hswap
          obtain ⟨hpath, hne, hquiet⟩ := hswap
          by_cases hwrites : (tick f.name).writes
          · rw [if_pos (by simp [hne, hwrites])]
            refine ⟨⟨rfl, fun _ => ?_, fun h => absurd h hw.not_quiet, fun _ _ _ => ?_,
              fun _ hnot => absurd ⟨htry, hwrites⟩ hnot⟩, hkeys, fun _ => hpath,
              fun hnot => absurd ⟨hw, htry⟩ hnot⟩
            all_goals
              intro items' hitems'
              obtain rfl := Option.some.inj hitems'
              exact hquiet
          · rw [if_neg (by simp [hwrites])]
            exact ⟨.refl_of fun _ hboth => hwrites hboth.2, hkeys, fun _ => hpath,
              fun hnot => absurd ⟨hw, htry⟩ hnot⟩
        · rw [if_neg fun hcond => htry (htries.mpr hcond)] at hswap
          obtain ⟨hsource, hstill⟩ := hswap
          dsimp only
          split_ifs
          · exact ⟨⟨rfl, fun h => absurd h hw.not_quiet, fun h => absurd h hw.not_quiet,
              fun _ ht => absurd ht htry, fun _ _ => ⟨_, rfl, hstill⟩⟩, hkeys,
              fun hboth => absurd hboth.2 htry, fun _ => hsource⟩
          · exact ⟨.refl_of fun _ hboth => htry hboth.1, hkeys, fun hboth => absurd hboth.2 htry,
              fun _ => hsource⟩
      · have hpassed := (hquiet items hitems).swapPendingItems (tick f.name) hnamed
        generalize (tick f.name).env.swapPendingItems (tick f.name).recordSwap items rows = o at *
        have hnot : ¬ seg.WaitsIn (rows.map BumperRow.key) f := fun hw => hw.not_quiet hquiet
        dsimp only
        split_ifs
        · refine ⟨⟨rfl, fun _ items' hitems' => ?_, fun _ habsent items' hitems' => ?_,
            fun hw => absurd hw hnot, fun hw => absurd hw hnot⟩, hpassed.keys,
            fun hboth => absurd hboth.1 hnot, fun _ => hpassed.named⟩
          · obtain rfl := Option.some.inj hitems'
            exact hpassed.quiet
          · obtain rfl := Option.some.inj hitems'
            intro b hb
            obtain ⟨a, ha, hbase⟩ := hpassed.bases b hb
            rw [hbase]
            exact habsent items hitems a ha
        · exact ⟨.refl_of fun hw => absurd hw hnot, hpassed.keys,
            fun hboth => absurd hboth.1 hnot, fun _ => hpassed.named⟩
  · rw [hstill hactive]
    refine ⟨.refl_of fun _ htries => hactive ⟨htries.1.1, htries.1.2.1⟩, rfl,
      fun hw => absurd ⟨hw.2.1, hw.2.2.1⟩ hactive, fun _ => hnamed⟩

/-- One tick over the files: each becomes what its turn makes of it, and the rows name the real
file from the first turn that swaps the segment on. -/
theorem tick_became (tick : ℤ × ℤ → Attempt) {files : Folder β}
    (h : ∀ f ∈ files, seg.WaitsIn (rows.map BumperRow.key) f ∨
      seg.QuietIn (rows.map BumperRow.key) f) (hnamed : seg.Named rows source) :
    List.Forall₂ (seg.Became (rows.map BumperRow.key) tick) files
        (swapPendingPlayout tick files rows).1 ∧
      (swapPendingPlayout tick files rows).2.map BumperRow.key = rows.map BumperRow.key ∧
      ((∃ f ∈ files, seg.WaitsIn (rows.map BumperRow.key) f ∧ seg.Tries tick f) →
        seg.Named (swapPendingPlayout tick files rows).2 seg.path) ∧
      ((¬ ∃ f ∈ files, seg.WaitsIn (rows.map BumperRow.key) f ∧ seg.Tries tick f) →
        seg.Named (swapPendingPlayout tick files rows).2 source) := by
  induction files generalizing rows source with
  | nil => exact ⟨.nil, rfl, fun ⟨f, hf, _⟩ => absurd hf List.not_mem_nil, fun _ => hnamed⟩
  | cons f files ih =>
    obtain ⟨hbecame, hkeys, hswapped, hkept⟩ := turn_became tick (h f List.mem_cons_self) hnamed
    have hcons : swapPendingPlayout tick (f :: files) rows =
        ((turn tick f rows).1 :: (swapPendingPlayout tick files (turn tick f rows).2).1,
          (swapPendingPlayout tick files (turn tick f rows).2).2) := rfl
    have hrest : ∀ g ∈ files, seg.WaitsIn ((turn tick f rows).2.map BumperRow.key) g ∨
        seg.QuietIn ((turn tick f rows).2.map BumperRow.key) g := by
      intro g hg
      rw [hkeys]
      exact h g (List.mem_cons_of_mem _ hg)
    rw [hcons]
    by_cases hone : seg.WaitsIn (rows.map BumperRow.key) f ∧ seg.Tries tick f
    · obtain ⟨hforall, hkeys', hyes, hno⟩ := ih hrest (hswapped hone)
      rw [hkeys] at hforall hkeys' hyes hno
      refine ⟨.cons hbecame hforall, hkeys', fun _ => ?_, fun hnone => ?_⟩
      · by_cases hmore : ∃ g ∈ files, seg.WaitsIn (rows.map BumperRow.key) g ∧ seg.Tries tick g
        · exact hyes hmore
        · exact hno hmore
      · exact absurd ⟨f, List.mem_cons_self, hone⟩ hnone
    · obtain ⟨hforall, hkeys', hyes, hno⟩ := ih hrest (hkept hone)
      rw [hkeys] at hforall hkeys' hyes hno
      refine ⟨.cons hbecame hforall, hkeys', ?_, fun hnone => ?_⟩
      · rintro ⟨g, hg, hboth⟩
        rcases List.mem_cons.mp hg with rfl | hg
        · exact absurd hboth hone
        · exact hyes ⟨g, hg, hboth⟩
      · exact hno fun ⟨g, hg, hboth⟩ => hnone ⟨g, List.mem_cons_of_mem _ hg, hboth⟩

section Run

variable {keys : List (String × ℤ)} {files : Folder β}

/-- Items and rows agree of a segment whose rows name the real file exactly when no file has it
still to be swapped, or the stand-in is that file. -/
theorem agrees_landed_iff (h : ∀ f ∈ files, seg.WaitsIn keys f ∨ seg.QuietIn keys f)
    (hnamed : seg.Named rows seg.path) :
    seg.Agrees files rows ↔ seg.standIn = seg.path ∨ ∀ f ∈ files, ¬ seg.WaitsIn keys f := by
  obtain ⟨⟨r, hr, hrow⟩, hsource⟩ := hnamed
  constructor
  · intro hagrees
    by_cases hnone : ∀ f ∈ files, ¬ seg.WaitsIn keys f
    · exact Or.inr hnone
    · left
      push Not at hnone
      obtain ⟨f, hf, items, hitems, pre, run, post, rfl, hrun, -⟩ := hnone
      obtain ⟨a, rest, rfl, -, -, hfile⟩ := hrun.opens
      have hmem : a ∈ pre ++ (a :: rest ++ post) := by simp
      have := hagrees f hf _ hitems a hmem (hrun.base a List.mem_cons_self) _ hfile r hr hrow
      rw [← this, hsource r hr hrow]
  · intro hcases f hf items hitems a ha hbase path hfile r hr hrow
    rw [hsource r hr hrow]
    rcases h f hf with hw | hquiet
    · rcases hcases with hsame | hnone
      · obtain ⟨items', hitems', pre, run, post, rfl, hrun, hother, -⟩ := hw
        rw [hitems] at hitems'
        obtain rfl := Option.some.inj hitems'
        have hin : a ∈ run := by
          by_contra hnot
          exact hother a (by simp_all) hbase
        rw [hrun.plays a hin path hfile, hsame]
      · exact absurd hw (hnone f hf)
    · exact (((hquiet items hitems a ha).1 hbase).2 path hfile).symm

theorem agrees_standIn (h : ∀ f ∈ files, seg.WaitsIn keys f ∨ seg.AbsentIn f)
    (hnamed : seg.Named rows seg.standIn) : seg.Agrees files rows := by
  intro f hf items hitems a ha hbase path hfile r hr hrow
  rw [hnamed.2 r hr hrow]
  rcases h f hf with ⟨items', hitems', pre, run, post, rfl, hrun, hother, -⟩ | habsent
  · rw [hitems] at hitems'
    obtain rfl := Option.some.inj hitems'
    have hin : a ∈ run := by
      by_contra hnot
      exact hother a (by simp_all) hbase
    exact (hrun.plays a hin path hfile).symm
  · exact absurd hbase (habsent items hitems a ha)

/-- Some tick is to swap the segment in `f`, and writes the file. -/
def Lands (seg : PendingSegment) (ticks : List (ℤ × ℤ → Attempt)) (f : ChunkFile β) : Prop :=
  ∃ tick ∈ ticks, seg.Tries tick f ∧ (tick f.name).writes

theorem tries_congr {tick : ℤ × ℤ → Attempt} {f f' : ChunkFile β} (h : f'.name = f.name) :
    seg.Tries tick f' ↔ seg.Tries tick f := by
  have hfinish : f'.finish = f.finish := congrArg Prod.snd h
  simp only [Tries, h, hfinish]

theorem lands_congr {ticks : List (ℤ × ℤ → Attempt)} {f f' : ChunkFile β}
    (h : f'.name = f.name) : seg.Lands ticks f' ↔ seg.Lands ticks f := by
  simp only [Lands, tries_congr h, h]

theorem lands_cons {tick : ℤ × ℤ → Attempt} {ticks : List (ℤ × ℤ → Attempt)} {f : ChunkFile β} :
    seg.Lands (tick :: ticks) f ↔
      (seg.Tries tick f ∧ (tick f.name).writes) ∨ seg.Lands ticks f := by
  simp [Lands]

theorem Became.waits_iff {tick : ℤ × ℤ → Attempt} {f f' : ChunkFile β}
    (h : seg.Became keys tick f f') (hf : seg.WaitsIn keys f ∨ seg.QuietIn keys f) :
    seg.WaitsIn keys f' ↔
      seg.WaitsIn keys f ∧ ¬ (seg.Tries tick f ∧ (tick f.name).writes) := by
  constructor
  · intro hw'
    rcases hf with hw | hquiet
    · exact ⟨hw, fun hboth => hw'.not_quiet (h.landed hw hboth.1 hboth.2)⟩
    · exact absurd (h.quiet hquiet) hw'.not_quiet
  · exact fun ⟨hw, hnot⟩ => h.waits hw hnot

theorem Became.holds {tick : ℤ × ℤ → Attempt} {f f' : ChunkFile β}
    (h : seg.Became keys tick f f') (hf : seg.WaitsIn keys f ∨ seg.QuietIn keys f) :
    seg.WaitsIn keys f' ∨ seg.QuietIn keys f' := by
  rcases hf with hw | hquiet
  · by_cases hboth : seg.Tries tick f ∧ (tick f.name).writes
    · exact Or.inr (h.landed hw hboth.1 hboth.2)
    · exact Or.inl (h.waits hw hboth)
  · exact Or.inr (h.quiet hquiet)

theorem forall₂_holds {tick : ℤ × ℤ → Attempt} {files' : Folder β}
    (h : ∀ f ∈ files, seg.WaitsIn keys f ∨ seg.QuietIn keys f)
    (hall : List.Forall₂ (seg.Became keys tick) files files') :
    ∀ f ∈ files', seg.WaitsIn keys f ∨ seg.QuietIn keys f := by
  induction hall with
  | nil => simp
  | @cons f f' files files' hone _ ih =>
    rw [List.forall_mem_cons] at h ⊢
    exact ⟨hone.holds h.1, ih h.2⟩

/-- In the files a tick leaves, the segment waits where it did and did not land. -/
theorem all_lands_cons {tick : ℤ × ℤ → Attempt} {ticks : List (ℤ × ℤ → Attempt)}
    {files' : Folder β} (h : ∀ f ∈ files, seg.WaitsIn keys f ∨ seg.QuietIn keys f)
    (hall : List.Forall₂ (seg.Became keys tick) files files') :
    (∀ f ∈ files', seg.WaitsIn keys f → seg.Lands ticks f) ↔
      ∀ f ∈ files, seg.WaitsIn keys f → seg.Lands (tick :: ticks) f := by
  induction hall with
  | nil => simp
  | @cons f f' files files' hone _ ih =>
    have hrest := ih fun g hg => h g (List.mem_cons_of_mem _ hg)
    have hfirst : (seg.WaitsIn keys f' → seg.Lands ticks f') ↔
        (seg.WaitsIn keys f → seg.Lands (tick :: ticks) f) := by
      rw [hone.waits_iff (h f List.mem_cons_self), lands_congr hone.name, lands_cons]
      tauto
    rw [List.forall_mem_cons, List.forall_mem_cons, hfirst, hrest]

theorem none_tries_cons {tick : ℤ × ℤ → Attempt} {ticks : List (ℤ × ℤ → Attempt)}
    {files' : Folder β} (h : ∀ f ∈ files, seg.WaitsIn keys f ∨ seg.QuietIn keys f)
    (hall : List.Forall₂ (seg.Became keys tick) files files')
    (hnone : ¬ ∃ f ∈ files, seg.WaitsIn keys f ∧ seg.Tries tick f) :
    (∀ f ∈ files', seg.WaitsIn keys f → ∀ t ∈ ticks, ¬ seg.Tries t f) ↔
      ∀ f ∈ files, seg.WaitsIn keys f → ∀ t ∈ tick :: ticks, ¬ seg.Tries t f := by
  induction hall with
  | nil => simp
  | @cons f f' files files' hone _ ih =>
    have hrest := ih (fun g hg => h g (List.mem_cons_of_mem _ hg))
      fun ⟨g, hg, hboth⟩ => hnone ⟨g, List.mem_cons_of_mem _ hg, hboth⟩
    have hidle : seg.WaitsIn keys f → ¬ seg.Tries tick f :=
      fun hw htries => hnone ⟨f, List.mem_cons_self, hw, htries⟩
    have hfirst : (seg.WaitsIn keys f' → ∀ t ∈ ticks, ¬ seg.Tries t f') ↔
        (seg.WaitsIn keys f → ∀ t ∈ tick :: ticks, ¬ seg.Tries t f) := by
      rw [hone.waits_iff (h f List.mem_cons_self), List.forall_mem_cons]
      simp only [tries_congr hone.name]
      tauto
    rw [List.forall_mem_cons, List.forall_mem_cons, hfirst, hrest]

/-- Once the rows name the real file, they agree with the items when every file has caught up. -/
theorem swapTicks_landed_iff (ticks : List (ℤ × ℤ → Attempt))
    (h : ∀ f ∈ files, seg.WaitsIn (rows.map BumperRow.key) f ∨
      seg.QuietIn (rows.map BumperRow.key) f) (hnamed : seg.Named rows seg.path) :
    seg.Agrees (swapTicks ticks files rows).1 (swapTicks ticks files rows).2 ↔
      seg.standIn = seg.path ∨
        ∀ f ∈ files, seg.WaitsIn (rows.map BumperRow.key) f → seg.Lands ticks f := by
  induction ticks generalizing files rows with
  | nil =>
    rw [show swapTicks [] files rows = (files, rows) from rfl, agrees_landed_iff h hnamed]
    simp [Lands]
  | cons tick ticks ih =>
    obtain ⟨hall, hkeys, hyes, hno⟩ := tick_became tick h hnamed
    have hnamed' : seg.Named (swapPendingPlayout tick files rows).2 seg.path := by
      by_cases hsome : ∃ f ∈ files, seg.WaitsIn (rows.map BumperRow.key) f ∧ seg.Tries tick f
      · exact hyes hsome
      · exact hno hsome
    have hholds := forall₂_holds h hall
    have hrest := ih (by rw [hkeys]; exact hholds) hnamed'
    rw [hkeys, all_lands_cons h hall] at hrest
    exact hrest

/-- A segment as a generation leaves it: its rows name the stand-in, and every file either has
it whole and still to be swapped or does not have it. -/
structure Laid (seg : PendingSegment) (files : Folder β) (rows : List BumperRow) : Prop where
  files : ∀ f ∈ files, seg.WaitsIn (rows.map BumperRow.key) f ∨
    seg.QuietIn (rows.map BumperRow.key) f ∧ seg.AbsentIn f
  named : seg.Named rows seg.standIn

theorem Laid.holds (h : seg.Laid files rows) : ∀ f ∈ files,
    seg.WaitsIn (rows.map BumperRow.key) f ∨ seg.QuietIn (rows.map BumperRow.key) f :=
  fun f hf => (h.files f hf).imp_right And.left

/-- A tick that swaps the segment nowhere leaves it as it was laid. -/
theorem Laid.tick (h : seg.Laid files rows) {tick : ℤ × ℤ → Attempt}
    (hnone : ¬ ∃ f ∈ files, seg.WaitsIn (rows.map BumperRow.key) f ∧ seg.Tries tick f) :
    seg.Laid (swapPendingPlayout tick files rows).1 (swapPendingPlayout tick files rows).2 := by
  obtain ⟨hall, hkeys, -, hno⟩ := tick_became tick h.holds h.named
  refine ⟨?_, hno hnone⟩
  rw [hkeys]
  have hfiles := h.files
  generalize (swapPendingPlayout tick files rows).1 = files' at hall ⊢
  clear h hkeys hno
  induction hall with
  | nil => simp
  | @cons f f' files files' hone _ ih =>
    rw [List.forall_mem_cons] at hfiles ⊢
    refine ⟨?_, ih (fun ⟨g, hg, hboth⟩ => hnone ⟨g, List.mem_cons_of_mem _ hg, hboth⟩) hfiles.2⟩
    rcases hfiles.1 with hw | ⟨hquiet, habsent⟩
    · exact Or.inl (hone.waits hw fun hboth => hnone ⟨f, List.mem_cons_self, hw, hboth.1⟩)
    · exact Or.inr ⟨hone.quiet hquiet, hone.absent hquiet habsent⟩

/-- After any ticks the ledger names what the files play of a segment exactly when no tick was
to swap it in any file, or in every file that has it some tick did and the write succeeded. -/
theorem Laid.agrees_iff (h : seg.Laid files rows) (ticks : List (ℤ × ℤ → Attempt)) :
    seg.Agrees (swapTicks ticks files rows).1 (swapTicks ticks files rows).2 ↔
      seg.standIn = seg.path ∨
      (∀ f ∈ files, seg.WaitsIn (rows.map BumperRow.key) f →
        ∀ tick ∈ ticks, ¬ seg.Tries tick f) ∨
      ∀ f ∈ files, seg.WaitsIn (rows.map BumperRow.key) f → seg.Lands ticks f := by
  induction ticks generalizing files rows with
  | nil =>
    have hagrees : seg.Agrees files rows :=
      agrees_standIn (fun f hf => (h.files f hf).imp_right And.right) h.named
    refine iff_of_true hagrees ?_
    exact Or.inr (Or.inl fun _ _ _ _ htick => absurd htick List.not_mem_nil)
  | cons tick ticks ih =>
    obtain ⟨hall, hkeys, hyes, -⟩ := tick_became tick h.holds h.named
    by_cases hsome : ∃ f ∈ files, seg.WaitsIn (rows.map BumperRow.key) f ∧ seg.Tries tick f
    · have hrest := swapTicks_landed_iff ticks
        (by rw [hkeys]; exact forall₂_holds h.holds hall) (hyes hsome)
      rw [hkeys, all_lands_cons h.holds hall] at hrest
      have hnot : ¬ ∀ f ∈ files, seg.WaitsIn (rows.map BumperRow.key) f →
          ∀ t ∈ tick :: ticks, ¬ seg.Tries t f := by
        obtain ⟨f, hf, hw, htries⟩ := hsome
        exact fun hall => hall f hf hw tick List.mem_cons_self htries
      rw [or_iff_right hnot]
      exact hrest
    · have hrest := ih (h.tick hsome)
      rw [hkeys, all_lands_cons h.holds hall] at hrest
      have hnone : (∀ f ∈ (swapPendingPlayout tick files rows).1,
            seg.WaitsIn (rows.map BumperRow.key) f → ∀ t ∈ ticks, ¬ seg.Tries t f) ↔
          ∀ f ∈ files, seg.WaitsIn (rows.map BumperRow.key) f →
            ∀ t ∈ tick :: ticks, ¬ seg.Tries t f :=
        none_tries_cons h.holds hall hsome
      rw [hnone] at hrest
      exact hrest

end Run

end PendingSegment

def title : PendingSegment := ⟨"bumper:0", "next", 60000000000, "/stand.mp4", "/renders/next.mp4"⟩

def titleFile : ChunkFile Unit := ⟨0, 6 * HOUR, some [{ landedItem 61000000000 with
  source := some (.local_ "/stand.mp4" none none) }]⟩

def titleRow : BumperRow := ⟨"next", 60000000000, "/stand.mp4"⟩

def titleTick (writes : Bool) : ℤ × ℤ → Attempt := fun _ => ⟨true, landed, fun _ => false, writes⟩

theorem title_laid : title.Laid [titleFile] [titleRow] := by
  refine ⟨fun f hf => Or.inl ?_, ⟨titleRow, List.mem_cons_self, by decide⟩, fun r hr _ => ?_⟩
  · obtain rfl := List.mem_singleton.mp hf
    refine ⟨_, rfl, [], [_], [], rfl, ⟨?_, ?_, ?_, ?_⟩, by simp, by simp [PendingSegment.Quiet]⟩
    · intro a ha
      obtain rfl := List.mem_singleton.mp ha
      decide
    · intro a ha
      obtain rfl := List.mem_singleton.mp ha
      exact ⟨_, rfl, rfl⟩
    · intro a ha path hpath
      obtain rfl := List.mem_singleton.mp ha
      exact (Option.some.inj hpath).symm
    · exact ⟨_, [], rfl, rfl, rfl, rfl⟩
  · obtain rfl := List.mem_singleton.mp hr
    rfl

theorem title_agrees_iff :
    title.Agrees (swapTicks [titleTick false, titleTick true] [titleFile] [titleRow]).1
        (swapTicks [titleTick false, titleTick true] [titleFile] [titleRow]).2 ↔
      title.standIn = title.path ∨
      (∀ f ∈ [titleFile], title.WaitsIn ([titleRow].map BumperRow.key) f →
        ∀ tick ∈ [titleTick false, titleTick true], ¬ title.Tries tick f) ∨
      ∀ f ∈ [titleFile], title.WaitsIn ([titleRow].map BumperRow.key) f →
        title.Lands [titleTick false, titleTick true] f :=
  title_laid.agrees_iff _

/-- The write fails after the row was pointed at the render: the file plays the stand-in. -/
theorem title_disagrees : title.Laid [titleFile] [titleRow] ∧
    ¬ title.Agrees (swapTicks [titleTick false] [titleFile] [titleRow]).1
      (swapTicks [titleTick false] [titleFile] [titleRow]).2 := by
  have hrun : swapTicks [titleTick false] [titleFile] [titleRow] =
      ([titleFile], [{ titleRow with source := "/renders/next.mp4" }]) := by
    decide
  refine ⟨title_laid, fun h => ?_⟩
  rw [hrun] at h
  have := h titleFile List.mem_cons_self _ rfl _ List.mem_cons_self (by decide) _ rfl _
    List.mem_cons_self (by decide)
  revert this
  decide

end EtvStation
