import EtvStation.Fillers
import EtvStation.Resolve.Unplugged
import EtvStation.Ticks
import Mathlib.Data.List.DropRight

/-! The replay of a channel against an in-memory ledger, and the airings table it stands in for. -/
namespace EtvStation

open Bumper
open Lib (Alike)

variable {β : Type}

/-- Sorted maps that answer alike are the same. -/
theorem BTreeMap.ext_get {m m' : BTreeMap String String} (h : m.Keyed) (h' : m'.Keyed)
    (hs : m.Pairwise fun a b => a.1 ≤ b.1) (hs' : m'.Pairwise fun a b => a.1 ≤ b.1)
    (hget : ∀ k, m.get k = m'.get k) : m = m' := by
  have hmem : ∀ e, e ∈ m ↔ e ∈ m' := by
    rintro ⟨k, v⟩
    rw [← Lib.lookup_eq_some_iff_mem h, ← Lib.lookup_eq_some_iff_mem h']
    exact Eq.congr_left (hget k)
  have hperm : m.Perm m' :=
    (List.perm_ext_iff_of_nodup (List.Nodup.of_map _ h) (List.Nodup.of_map _ h')).mpr hmem
  refine hperm.eq_of_pairwise (fun a b ha hb hab hba => ?_) hs hs'
  exact List.inj_on_of_nodup_map h ha ((hmem b).mpr hb) (le_antisymm hab hba)

theorem BTreeMap.collect_sorted (entries : List (String × String)) :
    (BTreeMap.collect entries).Pairwise fun a b => a.1 ≤ b.1 := by
  have : Std.Total fun a b : String × String => a.1 ≤ b.1 := ⟨fun a b => le_total a.1 b.1⟩
  have : IsTrans (String × String) fun a b => a.1 ≤ b.1 := ⟨fun _ _ _ h h' => le_trans h h'⟩
  exact List.pairwise_insertionSort _ _

structure AiringsLedger where
  seriesCursor : BTreeMap String String
  globalCursor : BTreeMap String String
  tail : ℕ → List String

namespace HistoryDb

/-- The last programmes on a channel, oldest first, at most `n`: `ORDER BY start_ns DESC, id DESC
LIMIT n`, reversed. -/
def tail (db : HistoryDb) (channel : String) (n : ℕ) : List String :=
  (((db.programmes channel).insertionSort fun a b => a.start ≤ b.start).map (·.entryId)).rtake n

def channelLedger (db : HistoryDb) (channel : String) : AiringsLedger where
  seriesCursor := db.seriesCursor channel
  globalCursor := db.crossChannelShowCursor
  tail := db.tail channel

end HistoryDb

section Rows

variable {rows : List PlayRecord} {r : PlayRecord}

theorem lastByKey_keyed (key : PlayRecord → Option String) (rows : List PlayRecord) :
    (lastByKey key rows).Keyed := by
  have hkeys : ∀ l : List String, (l.filterMap fun k =>
      (lastRow (rows.filter fun r => key r = some k)).map fun r => (k, r.entryId)).map Prod.fst =
        l.filter fun k => (lastRow (rows.filter fun r => key r = some k)).isSome := by
    intro l
    induction l with
    | nil => rfl
    | cons k l ih =>
      cases hlast : lastRow (rows.filter fun r => key r = some k) with
      | none => rw [List.filterMap_cons_none (by rw [hlast]; rfl), List.filter_cons_of_neg
          (by rw [hlast]; exact Bool.false_ne_true), ih]
      | some r => rw [List.filterMap_cons_some (by rw [hlast]; rfl), List.filter_cons_of_pos
          (by rw [hlast]; rfl), List.map_cons, ih]
  have hperm := (List.perm_insertionSort (fun a b : String × String => a.1 ≤ b.1)
    ((rows.filterMap key).dedup.filterMap fun k =>
      (lastRow (rows.filter fun r => key r = some k)).map fun r => (k, r.entryId))).map Prod.fst
  refine hperm.nodup_iff.mpr ?_
  rw [hkeys]
  exact (List.nodup_dedup _).filter _

/-- A row later than every other is its key's last. -/
theorem lastByKey_append (key : PlayRecord → Option String)
    (h : ∀ b ∈ rows, b.start ≤ r.start) :
    lastByKey key (rows ++ [r]) = (key r).elim (lastByKey key rows) fun k =>
      (lastByKey key rows).put k r.entryId := by
  have hkeyed := lastByKey_keyed key rows
  have hget : ∀ k, (lastByKey key (rows ++ [r])).get k =
      if key r = some k then some r.entryId else (lastByKey key rows).get k := by
    intro k
    rw [lastByKey_get, lastByKey_get, List.filter_append]
    split_ifs with hkey
    · rw [List.filter_cons_of_pos (by exact decide_eq_true hkey), List.filter_nil, lastRow_append]
      cases hlast : lastRow (rows.filter fun r => key r = some k) with
      | none => rfl
      | some b =>
        have hb := h b (List.mem_of_mem_filter (lastRow_mem hlast))
        rw [later, if_pos hb]
        rfl
    · rw [List.filter_cons_of_neg (by simpa using hkey), List.filter_nil, List.append_nil]
  cases hkey : key r with
  | none =>
    refine BTreeMap.ext_get (lastByKey_keyed _ _) hkeyed (BTreeMap.collect_sorted _)
      (BTreeMap.collect_sorted _) fun k => ?_
    rw [hget, hkey, if_neg (Option.some_ne_none k).symm, Option.elim_none]
  | some k =>
    refine BTreeMap.ext_get (lastByKey_keyed _ _) (BTreeMap.put_keyed hkeyed _ _)
      (BTreeMap.collect_sorted _) (BTreeMap.collect_sorted _) fun k' => ?_
    rw [hget, hkey, Option.elim_some, BTreeMap.get_put hkeyed]
    simp only [Option.some.injEq, eq_comm]

theorem orderedInsert_append {a : PlayRecord} (l : List PlayRecord) (h : a.start ≤ r.start) :
    (l ++ [r]).orderedInsert (fun a b => a.start ≤ b.start) a =
      l.orderedInsert (fun a b => a.start ≤ b.start) a ++ [r] := by
  induction l with
  | nil => simp [h]
  | cons b l ih =>
    rw [List.cons_append, List.orderedInsert_cons, List.orderedInsert_cons]
    split_ifs
    · rfl
    · rw [ih, List.cons_append]

theorem insertionSort_append (h : ∀ b ∈ rows, b.start ≤ r.start) :
    (rows ++ [r]).insertionSort (fun a b => a.start ≤ b.start) =
      rows.insertionSort (fun a b => a.start ≤ b.start) ++ [r] := by
  induction rows with
  | nil => rfl
  | cons a rows ih =>
    rw [List.cons_append, List.insertionSort_cons, List.insertionSort_cons,
      ih fun b hb => h b (List.mem_cons_of_mem _ hb),
      orderedInsert_append _ (h a List.mem_cons_self)]

end Rows

namespace Simulate

/-- The airings so far, held in memory: the entries in schedule order, what each series aired last
and what each show did. -/
structure Ledger where
  entryIds : List String := []
  cursor : BTreeMap String String := []
  showCursor : BTreeMap String String := []

namespace Ledger

def record (l : Ledger) (entryId : String) (showId : Option String) : Ledger where
  entryIds := l.entryIds ++ [entryId]
  cursor := l.cursor.put (showId.getD entryId) entryId
  showCursor := match showId with
    | some showId => l.showCursor.put showId entryId
    | none => l.showCursor

def reads (l : Ledger) : AiringsLedger where
  seriesCursor := l.cursor
  globalCursor := l.showCursor
  tail n := l.entryIds.rtake n

/-- The ledger answers like the table: its cursors are the same, and so are its tails down to
`reach`. -/
structure Agrees (l : Ledger) (reach : ℕ) (db : HistoryDb) (channel : String) : Prop where
  cursor : l.cursor = db.seriesCursor channel
  showCursor : l.showCursor = db.crossChannelShowCursor
  tail : ∀ n ≤ reach, l.entryIds.rtake n = db.tail channel n

/-- One more airing, later than the rows there are, leaves the ledger and the table alike. -/
theorem Agrees.record {l : Ledger} {reach : ℕ} {db : HistoryDb} {channel : String}
    (h : l.Agrees reach db channel) {r : PlayRecord}
    (hlater : ∀ a ∈ db, a.record.start ≤ r.start) :
    (l.record r.entryId r.showId).Agrees reach (db ++ [⟨channel, .programme, r⟩]) channel := by
  have hprogrammes : HistoryDb.programmes (db ++ [⟨channel, .programme, r⟩]) channel =
      db.programmes channel ++ [r] := by
    unfold HistoryDb.programmes
    rw [List.filter_append, List.map_append]
    simp
  have hrows : ∀ b ∈ db.programmes channel, b.start ≤ r.start := by
    intro b hb
    obtain ⟨a, ha, rfl⟩ := List.mem_map.mp hb
    exact hlater a (List.mem_of_mem_filter ha)
  refine ⟨?_, ?_, fun n hn => ?_⟩
  · rw [HistoryDb.seriesCursor, hprogrammes, lastByKey_append _ hrows, Option.elim_some,
      ← HistoryDb.seriesCursor, ← h.cursor]
    rfl
  · have hall : ((db ++ [(⟨channel, .programme, r⟩ : Airing)]).filter
        fun a => a.kind = .programme).map (·.record) =
          (db.filter fun a => a.kind = .programme).map (·.record) ++ [r] := by
      rw [List.filter_append, List.map_append]
      simp
    rw [HistoryDb.crossChannelShowCursor, hall, lastByKey_append]
    · dsimp only [Ledger.record]
      rw [← HistoryDb.crossChannelShowCursor, ← h.showCursor]
      cases r.showId <;> rfl
    · intro b hb
      obtain ⟨a, ha, rfl⟩ := List.mem_map.mp hb
      exact hlater a (List.mem_of_mem_filter ha)
  · have htail := h.tail
    unfold HistoryDb.tail at htail ⊢
    rw [hprogrammes, insertionSort_append hrows, List.map_append, List.map_singleton]
    dsimp only [Ledger.record]
    cases n with
    | zero => rw [List.rtake_zero, List.rtake_zero]
    | succ n => rw [List.rtake_concat_succ, List.rtake_concat_succ, htail n (by omega)]

end Ledger

/-- What of `scoring` a generation reads. -/
structure ScoringConfig where
  recentDepth : ℕ := 200
  nominalItemSecs : ℕ := 1800

structure ScoreInputs where
  targetCount : ℕ
  recent : List EntryId

/-- What the generations of a channel share: its settings, its blocks, and what the catalog knows
of an entry. -/
structure GenerationEnv (β : Type) where
  name : String
  adjacencyReach : ℕ
  scoring : Option ScoringConfig
  chunkHours : ℕ
  env : Resolve.Env β
  rule : Resolve.RuleConfig β
  showIds : String → Option String
  catalogDuration : ResolvedItem β → Option ℕ

structure Generated (β : Type) where
  items : List (ResolvedItem β)
  resume : ResumeMap
  progress : List Progress
  targetCount : ℕ

structure SimulatedAiring where
  id : String
  block : ℕ
  showId : Option String
  start : ℤ
  duration : ℤ
  deriving DecidableEq, Repr

structure SimulatedGeneration where
  index : ℕ
  from_ : ℤ
  targetCount : ℕ
  airings : List SimulatedAiring
  deriving DecidableEq, Repr

/-- What the replay's loop carries from one generation to the next. -/
structure Replay where
  ledger : Ledger := {}
  resume : ResumeMap := {}
  from_ : ℤ
  generations : List SimulatedGeneration := []

namespace GenerationEnv

variable (env : GenerationEnv β)

def recentDepth : ℕ := (env.scoring.getD {}).recentDepth

def ledgerReach : ℕ := max env.adjacencyReach env.recentDepth

/-- How many items a plugin is asked for: as many as fit one chunk, or what is left. -/
def targetCount (from_ target : ℤ) : ℕ :=
  let perItem : ℤ := max (env.scoring.getD {}).nominalItemSecs 1
  let remaining := max ((target - from_).tdiv SECOND) 0
  (max 1 (min 500 (min remaining (env.chunkHours * 3600) / perItem))).toNat

/-- An item's length: the catalog's, or the channel's nominal one. -/
def length (item : ResolvedItem β) : ℕ :=
  (env.catalogDuration item).getD (max (env.scoring.getD {}).nominalItemSecs 1 * 1000000000)

def laid (items : List (ResolvedItem β)) : Sequential β :=
  items.map fun item => (item, env.length item)

def generationState (ledger : AiringsLedger) (resume : ResumeMap) : GenerationState :=
  ⟨resume, ledger.seriesCursor, ledger.globalCursor, ledger.tail env.adjacencyReach⟩

def scoreInputs (ledger : AiringsLedger) (from_ target : ℤ) : ScoreInputs :=
  ⟨env.targetCount from_ target, ledger.tail env.recentDepth⟩

/-- The channel's resolver, its plugins told of the generation. -/
def resolver (scoring : ScoreInputs) : Resolve.Env β :=
  { env.env with
    station.env.recent := scoring.recent
    station.env.targetCount := scoring.targetCount }

/-- One generation from `from_` toward `target`, on what the ledger says of the airings so far. -/
def generate (ledger : AiringsLedger) (resume : ResumeMap) (from_ target : ℤ) :
    Except String (Generated β) := do
  let scoring := env.scoreInputs ledger from_ target
  let (items, resume, progress) ← (env.resolver scoring).resolveChannel env.rule
    (env.generationState ledger resume) (some (target - from_).natAbs) from_
  return ⟨items, resume, progress, scoring.targetCount⟩

end GenerationEnv

/-- What a list laid from `from_` airs. -/
def airingsOf (showIds : String → Option String) (from_ : ℤ) (rule : Sequential β) :
    List SimulatedAiring :=
  (rule.itemSpans from_).map fun e => ⟨e.1.id, e.1.block, showIds e.1.id, e.2.1, e.2.2 - e.2.1⟩

def noPlayableDuration (index : ℕ) : String :=
  s!"generation {index} produced no playable duration"

namespace Replay

variable (env : GenerationEnv β)

def airings (s : Replay) : List SimulatedAiring := s.generations.flatMap (·.airings)

def lay (now : ℤ) (s : Replay) (g : Generated β) : Replay :=
  let airings := airingsOf env.showIds s.from_ (env.laid g.items)
  { ledger := airings.foldl (fun l a => l.record a.id a.showId) s.ledger
    resume := s.resume.adopt g.resume now
    from_ := s.from_ + (env.laid g.items).walked
    generations := s.generations ++ [⟨s.generations.length, s.from_, g.targetCount, airings⟩] }

def generation (now target : ℤ) (s : Replay) : Except String Replay := do
  let g ← env.generate s.ledger.reads s.resume s.from_ target
  if (env.laid g.items).walked ≤ 0 then
    throw (noPlayableDuration s.generations.length)
  return s.lay env now g

/-- One tick: generations until the window is covered, `fuel` of them at the most. -/
def tick (now target : ℤ) : (fuel : ℕ) → Replay → Except String Replay
  | 0, s => .ok s
  | fuel + 1, s =>
    if s.from_ < target then do tick now target fuel (← s.generation env now target) else .ok s

/-- The ticks at the given instants, each with the window ahead of it. -/
def ticks (window : ℤ) : List ℤ → Replay → Except String Replay
  | [], s => .ok s
  | now :: nows, s => do
    ticks window nows (← s.tick env now (now + window) MAX_GENERATIONS_PER_TICK)

end Replay

/-- The instants the loop ticks at, `fuel` of them at the most. -/
def instantsFrom (roll end_ : ℤ) : (fuel : ℕ) → ℤ → List ℤ
  | 0, _ => []
  | fuel + 1, now => if now < end_ then now :: instantsFrom roll end_ fuel (now + roll) else []

def instants (roll start end_ : ℤ) : List ℤ :=
  instantsFrom roll end_ ((end_ - start) / roll + 1).toNat start

theorem mem_instantsFrom {roll end_ : ℤ} (hroll : 0 < roll) {fuel : ℕ} {now : ℤ}
    (hfuel : end_ ≤ now + fuel * roll) {t : ℤ} :
    t ∈ instantsFrom roll end_ fuel now ↔ t < end_ ∧ ∃ k : ℕ, t = now + k * roll := by
  induction fuel generalizing now with
  | zero =>
    have hend : end_ ≤ now := by simpa using hfuel
    refine ⟨fun h => absurd h List.not_mem_nil, ?_⟩
    rintro ⟨hlt, k, rfl⟩
    have : 0 ≤ k * roll := by positivity
    omega
  | succ fuel ih =>
    rw [instantsFrom]
    split_ifs with hmore
    · have hrest : end_ ≤ now + roll + fuel * roll := by
        push_cast at hfuel
        linarith
      rw [List.mem_cons, ih hrest]
      constructor
      · rintro (rfl | ⟨hlt, k, rfl⟩)
        · exact ⟨hmore, 0, by simp⟩
        · exact ⟨hlt, k + 1, by push_cast; ring⟩
      · rintro ⟨hlt, k, rfl⟩
        cases k with
        | zero => exact Or.inl (by simp)
        | succ k => exact Or.inr ⟨hlt, k, by push_cast; ring⟩
    · refine ⟨fun h => absurd h List.not_mem_nil, ?_⟩
      rintro ⟨hlt, k, rfl⟩
      have : 0 ≤ k * roll := by positivity
      omega

/-- The loop ticks a `roll` apart from its start on, until the end. -/
theorem mem_instants {roll start end_ t : ℤ} (hroll : 0 < roll) :
    t ∈ instants roll start end_ ↔ t < end_ ∧ ∃ k : ℕ, t = start + k * roll := by
  refine mem_instantsFrom hroll ?_
  have hlt := Int.lt_ediv_add_one_mul_self (end_ - start) hroll
  have hle := mul_le_mul_of_nonneg_right (Int.self_le_toNat ((end_ - start) / roll + 1)) hroll.le
  linarith

def table (name : String) (rows : List PlayRecord) : HistoryDb :=
  rows.map (⟨name, .programme, ·⟩)

/-- A channel without plugins, that airs nothing but programmes that take time. -/
structure GenerationEnv.Plain (env : GenerationEnv β) : Prop where
  unplugged : env.rule.Unplugged
  draws : env.env.Draws env.rule fun item =>
    ∀ idx, { item with block := idx }.bumper = none ∧ 0 < env.length { item with block := idx }

section Replaying

variable {env : GenerationEnv β} {station : TickEnv β} {now : ℤ}

/-- Ledgers that answer alike as deep as a generation reads give the same generation. -/
theorem generate_agrees (hplain : env.Plain) {l : Ledger} {db : HistoryDb}
    (h : l.Agrees env.ledgerReach db env.name) {resume resume' : ResumeMap}
    (hresume : resume.toProgress = resume'.toProgress) (from_ target : ℤ) :
    Alike (fun g g' => g.items = g'.items ∧ g.resume.toProgress = g'.resume.toProgress)
      (env.generate l.reads resume from_ target)
      (env.generate (db.channelLedger env.name) resume' from_ target) := by
  have hscoring : env.scoreInputs l.reads from_ target =
      env.scoreInputs (db.channelLedger env.name) from_ target :=
    congrArg (ScoreInputs.mk (env.targetCount from_ target)) (h.tail _ (le_max_right _ _))
  have hsame : (env.generationState l.reads resume).Same
      (env.generationState (db.channelLedger env.name) resume') :=
    ⟨hresume, h.cursor, h.showCursor, h.tail _ (le_max_left _ _)⟩
  unfold GenerationEnv.generate
  rw [← hscoring]
  refine (Resolve.resolveChannel_unplugged hplain.unplugged hsame).bind ?_
  rintro ⟨items, out, progress⟩ ⟨_, out', _⟩ ⟨rfl, hout, rfl⟩
  exact .ok ⟨rfl, hout⟩

/-- A programme's row says what the replay records of it. -/
theorem Ledger.Agrees.records {reach : ℕ} {name : String} {rule : Sequential β}
    (hprogrammes : ∀ e ∈ rule, e.1.bumper = none) (showIds : String → Option String) {l : Ledger}
    {rows : List PlayRecord} {from_ : ℤ} (h : l.Agrees reach (table name rows) name)
    (hpast : ∀ r ∈ rows, r.start ≤ from_) :
    ((airingsOf showIds from_ rule).foldl (fun l a => l.record a.id a.showId) l).Agrees reach
        (table name (rows ++ playRecords showIds from_ rule)) name ∧
      ∀ r ∈ rows ++ playRecords showIds from_ rule, r.start ≤ from_ + rule.walked := by
  induction rule generalizing l rows from_ with
  | nil => simpa [airingsOf, playRecords, Sequential.itemSpans, Sequential.walked] using
      ⟨h, hpast⟩
  | cons e rule ih =>
    obtain ⟨item, dur⟩ := e
    have hnone : item.bumper = none := hprogrammes _ List.mem_cons_self
    set r : PlayRecord := ⟨item.id, showIds item.id, from_, item.errorCard⟩ with hr
    have hrows : playRecords showIds from_ ((item, dur) :: rule) =
        r :: playRecords showIds (from_ + dur) rule := by
      simp [playRecords, Sequential.itemSpans, hnone, hr]
    have hlater : ∀ a ∈ table name rows, a.record.start ≤ r.start := by
      intro a ha
      obtain ⟨b, hb, rfl⟩ := List.mem_map.mp ha
      exact hpast b hb
    have hone : (l.record r.entryId r.showId).Agrees reach (table name (rows ++ [r])) name := by
      have htable : table name (rows ++ [r]) = table name rows ++ [⟨name, .programme, r⟩] :=
        List.map_append
      rw [htable]
      exact h.record hlater
    have hpast' : ∀ b ∈ rows ++ [r], b.start ≤ from_ + dur := by
      intro b hb
      rcases List.mem_append.mp hb with hb | hb
      · have := hpast b hb
        omega
      · have hstart : r.start = from_ := rfl
        rw [List.mem_singleton.mp hb, hstart]
        omega
    have hrest := ih (fun e he => hprogrammes e (List.mem_cons_of_mem _ he)) hone hpast'
    have htotal : from_ + Sequential.walked ((item, dur) :: rule) =
        from_ + dur + Sequential.walked rule := by
      simp only [Sequential.walked, List.map_cons, List.sum_cons]
      push_cast
      omega
    rw [hrows, htotal, List.append_cons]
    exact hrest

/-- The replay stands where the daemon does: at the same instant, with the same progress, and its
ledger answers like the daemon's table. -/
structure Predicts (env : GenerationEnv β) (s : Replay) (p : Point β) : Prop where
  from_eq : s.from_ = p.from_
  progress : s.resume.toProgress = p.resume.toProgress
  ledger : s.ledger.Agrees env.ledgerReach (table env.name p.disk.ledger) env.name
  past : ∀ r ∈ p.disk.ledger, r.start ≤ p.from_

/-- The replay and the daemon go on alike: both lay `rule`, the daemon on disk, the replay in
memory. -/
structure GoesOn (env : GenerationEnv β) (grid : ChunkGrid) (now : ℤ)
    (before : List (PlayoutItem β)) (rule : Sequential β) (s : Replay) (p : Point β) (s' : Replay)
    (q : Point β) : Prop where
  extends_ : Extends grid now before rule p q
  predicts : Predicts env s' q
  programmes : ∀ e ∈ rule, e.1.bumper = none
  airings : s'.airings = s.airings ++ airingsOf env.showIds p.from_ rule

theorem GoesOn.refl {grid : ChunkGrid} {before : List (PlayoutItem β)} {s : Replay} {p : Point β}
    (h : Predicts env s p) (hstanding : Standing grid now p.from_ before p.disk.folder)
    (hsync : p.disk.sidecar = p.resume) : GoesOn env grid now before [] s p s p where
  extends_ := .refl hstanding hsync
  predicts := h
  programmes := by simp
  airings := (List.append_nil _).symm

theorem GoesOn.trans {grid : ChunkGrid} {before : List (PlayoutItem β)} {rule rule' : Sequential β}
    {s s' s'' : Replay} {p q r : Point β} (h : GoesOn env grid now before rule s p s' q)
    (h' : GoesOn env grid now (before ++ rule.laid p.from_) rule' s' q s'' r) :
    GoesOn env grid now before (rule ++ rule') s p s'' r where
  extends_ := h.extends_.trans h'.extends_
  predicts := h'.predicts
  programmes e he := (List.mem_append.mp he).elim (h.programmes e) (h'.programmes e)
  airings := by
    rw [h'.airings, h.airings, h.extends_.ends, List.append_assoc]
    unfold airingsOf
    rw [Sequential.itemSpans_append, List.map_append]

/-- The generation the replay makes where the daemon makes `g`. -/
theorem Predicts.generate {s : Replay} {p : Point β} (hp : Predicts env s p) (hplain : env.Plain)
    {target : ℤ} {g : Generated β}
    (hg : env.generate ((table env.name p.disk.ledger).channelLedger env.name)
      (p.resume.checkpoint p.from_) p.from_ target = .ok g) :
    ∃ g', env.generate s.ledger.reads s.resume s.from_ target = .ok g' ∧
      g'.items = g.items ∧ g'.resume.toProgress = g.resume.toProgress := by
  have hagrees := generate_agrees hplain hp.ledger
    (show s.resume.toProgress = (p.resume.checkpoint p.from_).toProgress from hp.progress)
    p.from_ target
  rw [hg] at hagrees
  obtain ⟨g', hg', hitems, hresume⟩ := hagrees.ok_of
  exact ⟨g', by rw [hp.from_eq, hg'], hitems, hresume⟩

end Replaying

section Run

variable {env : GenerationEnv β} {station : TickEnv β}

theorem Ledger.Agrees.mono {l : Ledger} {reach reach' : ℕ} {db : HistoryDb} {channel : String}
    (h : l.Agrees reach db channel) (hle : reach' ≤ reach) : l.Agrees reach' db channel :=
  ⟨h.cursor, h.showCursor, fun n hn => h.tail n (hn.trans hle)⟩

end Run

end Simulate

end EtvStation
