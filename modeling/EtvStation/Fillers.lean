import EtvStation.Generation
import EtvStation.Pattern.Reachable

/-! The airings table and the cursors read off it. What the fill pass takes of a pool airs as a
programme and has its row, so a resuming series opens after the last of its show that aired,
whichever of the pattern and the fill pass laid it. -/
namespace EtvStation

open Bumper

variable {β : Type}

inductive AiringKind
  | programme
  | bumper
  deriving DecidableEq, Repr

structure Airing where
  channel : String
  kind : AiringKind := .programme
  record : PlayRecord
  deriving DecidableEq, Repr

abbrev HistoryDb := List Airing

/-- A row of the greatest start takes the place of one before it, of equal starts too. -/
def later (last : Option PlayRecord) (r : PlayRecord) : Option PlayRecord :=
  match last with
  | some b => if b.start ≤ r.start then some r else some b
  | none => some r

def lastRow (rows : List PlayRecord) : Option PlayRecord := rows.foldl later none

/-- What each key played last: `ROW_NUMBER() OVER (PARTITION BY key ORDER BY start_ns DESC, id
DESC) = 1`. -/
def lastByKey (key : PlayRecord → Option String) (rows : List PlayRecord) :
    BTreeMap String String :=
  BTreeMap.collect ((rows.filterMap key).dedup.filterMap fun k =>
    (lastRow (rows.filter fun r => key r = some k)).map fun r => (k, r.entryId))

/-- The key a series' rows have: their show, else the entry itself. -/
def PlayRecord.seriesKey (r : PlayRecord) : String := r.showId.getD r.entryId

namespace HistoryDb

variable (db : HistoryDb)

def programmes (channel : String) : List PlayRecord :=
  (db.filter fun a => a.channel = channel && a.kind = .programme).map (·.record)

def seriesCursor (channel : String) : BTreeMap String String :=
  lastByKey (fun r => some r.seriesKey) (db.programmes channel)

/-- The last airing of each show, across every channel. -/
def crossChannelShowCursor : BTreeMap String String :=
  lastByKey (·.showId) ((db.filter fun a => a.kind = .programme).map (·.record))

end HistoryDb

section Rows

theorem lastRow_append (rows : List PlayRecord) (r : PlayRecord) :
    lastRow (rows ++ [r]) = later (lastRow rows) r := by
  rw [lastRow, List.foldl_append]
  rfl

/-- Of rows inserted in schedule order the last one is the latest. -/
theorem lastRow_of_ordered {rows : List PlayRecord}
    (h : rows.Pairwise fun a b => a.start ≤ b.start) : lastRow rows = rows.getLast? := by
  induction rows using List.reverseRecOn with
  | nil => rfl
  | append_singleton rows r ih =>
    obtain ⟨hrows, -, hle⟩ := List.pairwise_append.mp h
    rw [lastRow_append, ih hrows, List.getLast?_concat]
    cases hlast : rows.getLast? with
    | none => rfl
    | some b =>
      have hb := hle b (List.mem_of_getLast? hlast) r (List.mem_singleton_self r)
      rw [later, if_pos hb]

theorem lastRow_mem {rows : List PlayRecord} {r : PlayRecord} (h : lastRow rows = some r) :
    r ∈ rows := by
  induction rows using List.reverseRecOn with
  | nil => cases h
  | append_singleton rows x ih =>
    rw [lastRow_append] at h
    rw [List.mem_append, List.mem_singleton]
    unfold later at h
    split at h
    · rename_i b hb
      split_ifs at h
      · exact Or.inr (Option.some.inj h).symm
      · exact Or.inl (ih (hb.trans h))
    · exact Or.inr (Option.some.inj h).symm

theorem lastByKey_get (key : PlayRecord → Option String) (rows : List PlayRecord) (k : String) :
    (lastByKey key rows).get k =
      (lastRow (rows.filter fun r => key r = some k)).map (·.entryId) := by
  unfold lastByKey
  set entries := (rows.filterMap key).dedup.filterMap fun k =>
    (lastRow (rows.filter fun r => key r = some k)).map fun r => (k, r.entryId) with hentries
  have hmem : ∀ k v, (k, v) ∈ entries ↔
      (lastRow (rows.filter fun r => key r = some k)).map (·.entryId) = some v := by
    intro k v
    rw [hentries, List.mem_filterMap]
    constructor
    · rintro ⟨k', -, hk'⟩
      obtain ⟨r, hr, heq⟩ := Option.map_eq_some_iff.mp hk'
      obtain ⟨rfl, rfl⟩ := Prod.mk.inj heq
      rw [hr, Option.map_some]
    · intro hlast
      obtain ⟨r, hr, rfl⟩ := Option.map_eq_some_iff.mp hlast
      refine ⟨k, List.mem_dedup.mpr (List.mem_filterMap.mpr ⟨r, ?_⟩), by rw [hr, Option.map_some]⟩
      have hfiltered := List.mem_filter.mp (lastRow_mem hr)
      exact ⟨hfiltered.1, of_decide_eq_true hfiltered.2⟩
  have hkeys : (entries.map Prod.fst).Nodup := by
    refine (List.nodup_dedup (rows.filterMap key)).sublist ?_
    rw [hentries, List.map_filterMap]
    have hid : ∀ l : List String, (l.filterMap fun k =>
        ((lastRow (rows.filter fun r => key r = some k)).map fun r => (k, r.entryId)).map
          Prod.fst).Sublist l := by
      intro l
      induction l with
      | nil => exact List.Sublist.refl []
      | cons k l ih =>
        cases hlast : lastRow (rows.filter fun r => key r = some k) with
        | none =>
          rw [List.filterMap_cons_none (by rw [hlast]; rfl)]
          exact ih.cons k
        | some r =>
          rw [List.filterMap_cons_some (by rw [hlast]; rfl)]
          exact ih.cons_cons k
    exact hid _
  rw [BTreeMap.get_collect hkeys]
  refine Option.ext fun v => ?_
  rw [Lib.lookup_eq_some_iff_mem hkeys, hmem]

end Rows

/-- The programmes of a schedule, each under the key its row will have. -/
def programmesOf (showIds : String → Option String) (items : Sequential β) :
    List (String × String) :=
  (items.filter isPool).map fun e => ((showIds e.1.id).getD e.1.id, e.1.id)

namespace Generation

variable (g : Generation β) (env : FillEnv β) (channel : String) (from_ : ℤ)

/-- The generation as it airs from the top of its list. -/
def filled : Laid β := fillGaps env g.laid 0 from_ true g.endProgress

def airings : List Airing :=
  (g.records (g.hand env none true from_) from_).map (⟨channel, .programme, ·⟩) ++
    (g.filled env from_).bumperRecords.map fun b =>
      ⟨channel, .bumper, ⟨b.entryId, none, b.start, false⟩⟩

/-- What the generation airs as programmes, of the pattern and of the fill pass. -/
def aired : List (String × String) :=
  programmesOf g.showIds (g.hand env none true from_).items

def drawn : List (String × String) :=
  programmesOf g.showIds (g.laid.items.zip g.laid.durations)

end Generation

/-- Every item has one length and one state entering it. -/
def Generation.Formed (g : Generation β) : Prop :=
  g.laid.durations.length = g.laid.items.length ∧ g.laid.progress.length = g.laid.items.length

/-- What becomes of the airings table: a generation of the channel, or rows of other channels. -/
inductive LedgerAct (β : Type)
  | generation (g : Generation β) (env : FillEnv β) (formed : g.Formed)
  | elsewhere (rows : List Airing)

/-- No pool that may fill a gap has an item of the series. -/
def LedgerAct.Apart (key : String) : LedgerAct β → Prop
  | .generation g env _ => ∀ pool items, env.pools pool = some items → ∀ p ∈ items,
    (g.showIds p.1.id).getD p.1.id ≠ key
  | .elsewhere _ => True

/-- The airings table, and the instant the channel is laid to. -/
structure Ledger where
  db : HistoryDb := []
  from_ : ℤ

namespace Ledger

variable (channel : String) (l : Ledger)

/-- A generation that plays nothing is not recorded. -/
def take : LedgerAct β → Ledger
  | .generation g env _ =>
    let span := (g.hand env none true l.from_).span l.from_
    if 0 < span then ⟨l.db ++ g.airings env channel l.from_, l.from_ + span⟩ else l
  | .elsewhere rows => { l with db := l.db ++ rows.filter (·.channel ≠ channel) }

/-- No programme of the generation begins after the instant it is laid to. -/
def Closes : LedgerAct β → Prop
  | .generation g env _ =>
    let h := g.hand env none true l.from_
    0 < h.span l.from_ → ∀ r ∈ g.records h l.from_, r.start ≤ l.from_ + h.span l.from_
  | .elsewhere _ => True

def airs : LedgerAct β → List (String × String)
  | .generation g env _ =>
    if 0 < (g.hand env none true l.from_).span l.from_ then g.aired env l.from_ else []
  | .elsewhere _ => []

def draws : LedgerAct β → List (String × String)
  | .generation g env _ =>
    if 0 < (g.hand env none true l.from_).span l.from_ then g.drawn else []
  | .elsewhere _ => []

def run : Ledger → List (LedgerAct β) → Ledger
  | l, [] => l
  | l, e :: es => run (l.take channel e) es

def AllClose : Ledger → List (LedgerAct β) → Prop
  | _, [] => True
  | l, e :: es => l.Closes e ∧ AllClose (l.take channel e) es

def aired : Ledger → List (LedgerAct β) → List (String × String)
  | _, [] => []
  | l, e :: es => l.airs e ++ aired (l.take channel e) es

def drawn : Ledger → List (LedgerAct β) → List (String × String)
  | _, [] => []
  | l, e :: es => l.draws e ++ drawn (l.take channel e) es

/-- A generation closes where no programme of it is shorter, in nanoseconds, than it has items. -/
theorem closes_of_long (l : Ledger) {g : Generation β} {env : FillEnv β} (formed : g.Formed)
    (hshort : ((g.hand env none true l.from_).items.map Prod.snd).sum +
      (g.hand env none true l.from_).items.length < 2 ^ 23 * Lib.F64.NANOS)
    (hlong : ∀ e ∈ (g.hand env none true l.from_).items, e.1.bumper = none →
      (g.hand env none true l.from_).items.length ≤ e.2) :
    l.Closes (.generation g env formed) := by
  intro _ r hr
  obtain ⟨e, he, hrow⟩ := List.mem_filterMap.mp hr
  split_ifs at hrow with hbumper
  obtain rfl := Option.some.inj hrow
  obtain ⟨-, -, hend, dur, hdur, hfinish⟩ := Sequential.mem_itemSpans he
  have hlength := hlong _ hdur (by simpa using hbumper)
  have hnear := (Sequential.totalDuration_near hshort).2
  have hspan : (g.hand env none true l.from_).span l.from_ =
      (g.hand env none true l.from_).items.totalDuration := by
    change Sequential.totalDuration (List.drop 0 _) - (l.from_ - l.from_) = _
    rw [List.drop_zero, sub_self, sub_zero]
  rw [hspan]
  dsimp only at hlength ⊢
  omega

end Ledger

section Filling

variable {env : FillEnv β} {plan : FillPlan} {at_ boundary : ℤ} {state : PassState}

theorem landOn_items (n : ℕ) (pieces : List (Piece β)) :
    (landOn at_ boundary n pieces).map Prod.fst = pieces.map Prod.fst := by
  induction n generalizing pieces with
  | zero => rfl
  | succ n ih =>
    rw [landOn]
    split_ifs
    · rfl
    · cases hlast : pieces.getLast? with
      | none => rfl
      | some p =>
        obtain ⟨item, length⟩ := p
        dsimp only
        rw [ih, List.map_append, List.map_singleton]
        conv_rhs => rw [← List.dropLast_append_getLast? _ hlast]
        rw [List.map_append, List.map_singleton]

/-- What of a gap is no bumper comes from a pool. -/
theorem fillGap_taken (prev : Option (ResolvedItem β)) (ahead : List (ResolvedItem β))
    (block : ℕ) : ∀ p ∈ (env.fillGap plan at_ prev ahead block state).1, isPool p →
      ∃ pool items, env.pools pool = some items ∧ ∃ q ∈ items, q.1 = p.1 := by
  intro p hp hpool
  unfold FillEnv.fillGap at hp
  dsimp only at hp
  split_ifs at hp
  · cases hp
  · have hitem : p.1 ∈ ((env.gap plan at_ prev ahead block).fillLoop MAX_DRAWS_PER_GAP at_
        state).1.map Prod.fst := by
      rw [← landOn_items 8]
      exact List.mem_map_of_mem hp
    obtain ⟨q, hq, hsame⟩ := List.mem_map.mp hitem
    have hqpool : isPool q := by
      unfold isPool
      rw [hsame]
      exact hpool
    obtain ⟨name, items, hitems, hmem⟩ := fillLoop_taken _ _ _ q hq hqpool
    exact ⟨_, items, hitems, q, hmem, hsame⟩

theorem after_taken (item : ResolvedItem β) (ahead : List (ResolvedItem β)) :
    ∀ p ∈ (env.after item at_ ahead state).1, isPool p →
      ∃ pool items, env.pools pool = some items ∧ ∃ q ∈ items, q.1 = p.1 := by
  unfold FillEnv.after
  cases env.planFor item with
  | none =>
    intro p hp
    cases hp
  | some plan => exact fillGap_taken _ _ _

theorem fillLead_taken (items : List (Piece β)) (start : ℤ) (leading : Bool) :
    ∀ p ∈ (env.fillLead items start leading state).1, isPool p →
      ∃ pool items, env.pools pool = some items ∧ ∃ q ∈ items, q.1 = p.1 := by
  have hnone : ∀ p ∈ (([], state) : List (Piece β) × PassState).1, isPool p →
      ∃ pool items, env.pools pool = some items ∧ ∃ q ∈ items, q.1 = p.1 := by
    intro p hp
    cases hp
  unfold FillEnv.fillLead
  cases items.head? with
  | none => exact hnone
  | some first =>
    dsimp only
    cases env.planFor first.1 with
    | none => exact hnone
    | some plan =>
      cases leading with
      | false => exact hnone
      | true => exact fillGap_taken _ _ _

theorem fillAfter_taken (items : List (Piece β)) : ∀ gap ∈ (env.fillAfter items at_ state).1,
    ∀ p ∈ gap, isPool p →
      ∃ pool items, env.pools pool = some items ∧ ∃ q ∈ items, q.1 = p.1 := by
  induction items generalizing at_ state with
  | nil =>
    intro gap hgap
    cases hgap
  | cons e items ih =>
    obtain ⟨item, duration⟩ := e
    intro gap hgap
    rw [FillEnv.fillAfter] at hgap
    rcases List.mem_cons.mp hgap with rfl | hgap
    · exact after_taken _ _
    · exact ih gap hgap

theorem weave_filter (endProgress : Progress) (P : Piece β × Progress → Bool)
    (entries : List (Piece β × Progress)) {gaps : List (List (Piece β))}
    (h : ∀ gap ∈ gaps, ∀ p ∈ gap, ∀ progress, P (p, progress) = false) :
    (weave endProgress entries gaps).filter P = entries.filter P := by
  induction entries generalizing gaps with
  | nil => rfl
  | cons entry entries ih =>
    have hhead : ∀ p ∈ gaps.headD [], ∀ progress, P (p, progress) = false := by
      cases gaps with
      | nil =>
        intro p hp
        cases hp
      | cons gap gaps => exact h gap List.mem_cons_self
    have hcarry : ∀ progress, (carry progress (gaps.headD [])).filter P = [] := by
      intro progress
      apply List.filter_eq_nil_iff.mpr
      intro e he
      obtain ⟨p, hp, rfl⟩ := List.mem_map.mp he
      rw [hhead p hp]
      exact Bool.false_ne_true
    have hrest := ih fun gap hgap => h gap (List.mem_of_mem_tail hgap)
    rw [weave, List.cons_append, List.filter_cons, List.filter_cons, List.filter_append, hcarry,
      List.nil_append, hrest]

end Filling

section Chain

theorem hand_filled (g : Generation β) (env : FillEnv β) (from_ : ℤ) :
    (g.hand env none true from_).items =
      (g.filled env from_).items.zip (g.filled env from_).durations := by
  have hjoin : joinAt none true from_ g.laid.durations = (0, from_) := rfl
  unfold Generation.hand Generation.filled
  rw [hjoin]
  dsimp only
  rw [decide_eq_true rfl]

/-- Of a series that no fill pool has an item of, only the pattern's items air. -/
theorem aired_of_apart {g : Generation β} {env : FillEnv β} (formed : g.Formed) {key : String}
    (hapart : (LedgerAct.generation g env formed).Apart key) (from_ : ℤ) :
    (g.aired env from_).filter (fun e => e.1 = key) = g.drawn.filter fun e => e.1 = key := by
  obtain ⟨hlengths, hwoven⟩ := fillGaps_woven env formed 0 from_ true g.endProgress
  have hitems : (g.hand env none true from_).items =
      (g.filled env from_).entries.map Prod.fst :=
    (hand_filled g env from_).trans (entries_fst hlengths).symm
  set P : Piece β × Progress → Bool := fun e =>
    isPool e.1 && decide ((g.showIds e.1.1.id).getD e.1.1.id = key) with hP
  have hprogrammes : ∀ entries : List (Piece β × Progress),
      (programmesOf g.showIds (entries.map Prod.fst)).filter (fun e => e.1 = key) =
        (entries.filter P).map fun e => ((g.showIds e.1.1.id).getD e.1.1.id, e.1.1.id) := by
    intro entries
    induction entries with
    | nil => rfl
    | cons e entries ih =>
      unfold programmesOf at ih ⊢
      rw [List.map_cons, List.filter_cons, List.filter_cons]
      by_cases hpool : isPool e.1 = true
      · rw [if_pos hpool, List.map_cons, List.filter_cons, ih]
        by_cases hkey : (g.showIds e.1.1.id).getD e.1.1.id = key
        · have he : P e = true := by
            rw [hP]
            dsimp only
            rw [hpool, Bool.true_and, decide_eq_true hkey]
          rw [if_pos (decide_eq_true hkey), if_pos he, List.map_cons]
        · have he : P e = false := by
            rw [hP]
            dsimp only
            rw [decide_eq_false hkey, Bool.and_false]
          rw [if_neg (by simpa using hkey), he, if_neg Bool.false_ne_true]
      · have he : P e = false := by
          rw [hP]
          dsimp only
          rw [eq_false_of_ne_true hpool, Bool.false_and]
        rw [if_neg hpool, he, if_neg Bool.false_ne_true, ih]
  have hother : ∀ p : Piece β, (isPool p → ∃ pool items, env.pools pool = some items ∧
      ∃ q ∈ items, q.1 = p.1) → ∀ progress, P (p, progress) = false := by
    intro p hp progress
    rw [hP]
    dsimp only
    by_cases hpool : isPool p = true
    · obtain ⟨pool, items, hitems, q, hq, hsame⟩ := hp hpool
      have hne := hapart pool items hitems q hq
      rw [hsame] at hne
      rw [decide_eq_false hne, Bool.and_false]
    · rw [eq_false_of_ne_true hpool, Bool.false_and]
  have hlead : ∀ progress, (carry progress (env.fillLead
      ((g.laid.items.zip g.laid.durations).drop 0) from_ true {}).1).filter P = [] := by
    intro progress
    apply List.filter_eq_nil_iff.mpr
    intro e he
    obtain ⟨p, hp, rfl⟩ := List.mem_map.mp he
    rw [hother p (fillLead_taken _ _ _ p hp)]
    exact Bool.false_ne_true
  have hdrawn : g.laid.items.zip g.laid.durations = g.laid.entries.map Prod.fst :=
    (entries_fst formed).symm
  unfold Generation.aired Generation.drawn
  rw [hitems, hdrawn, hprogrammes, hprogrammes, Generation.filled, hwoven, List.take_zero,
    List.nil_append, List.filter_append, hlead, List.nil_append, List.drop_zero,
    weave_filter _ _ _ fun gap hgap p hp => hother p (fillAfter_taken _ gap hgap p hp)]

theorem playRecords_bumper (showIds : String → Option String) (from_ : ℤ)
    {item : ResolvedItem β} {b : Option (PlayoutItem β)} (h : item.bumper = some b) (dur : ℕ)
    (items : Sequential β) :
    playRecords showIds from_ ((item, dur) :: items) = playRecords showIds (from_ + dur) items := by
  simp [playRecords, Sequential.itemSpans, h]

theorem playRecords_programme (showIds : String → Option String) (from_ : ℤ)
    {item : ResolvedItem β} (h : item.bumper = none) (dur : ℕ) (items : Sequential β) :
    playRecords showIds from_ ((item, dur) :: items) =
      ⟨item.id, showIds item.id, from_, item.errorCard⟩ ::
        playRecords showIds (from_ + dur) items := by
  simp [playRecords, Sequential.itemSpans, h]

/-- The rows of a schedule name its programmes, in order, from where it begins. -/
theorem playRecords_programmes (showIds : String → Option String) (from_ : ℤ)
    (items : Sequential β) :
    (playRecords showIds from_ items).map (fun r => (r.seriesKey, r.entryId)) =
        programmesOf showIds items ∧
      (playRecords showIds from_ items).Pairwise (fun a b => a.start ≤ b.start) ∧
      ∀ r ∈ playRecords showIds from_ items, from_ ≤ r.start := by
  induction items generalizing from_ with
  | nil => exact ⟨rfl, List.Pairwise.nil, fun r hr => by cases hr⟩
  | cons e items ih =>
    obtain ⟨item, dur⟩ := e
    obtain ⟨hmap, hordered, hspan⟩ := ih (from_ + dur)
    have hlater : ∀ r ∈ playRecords showIds (from_ + dur) items, from_ ≤ r.start := by
      intro r hr
      have := hspan r hr
      omega
    cases hbumper : item.bumper with
    | some b =>
      have hnot : isPool (item, dur) = false := by simp [isPool, hbumper]
      rw [playRecords_bumper showIds from_ hbumper]
      refine ⟨?_, hordered, hlater⟩
      rw [programmesOf, List.filter_cons_of_neg (by simp [hnot])]
      exact hmap
    | none =>
      have hyes : isPool (item, dur) = true := by simp [isPool, hbumper]
      rw [playRecords_programme showIds from_ hbumper]
      refine ⟨?_, List.Pairwise.cons (fun r hr => hlater r hr) hordered, fun r hr => ?_⟩
      · rw [programmesOf, List.filter_cons_of_pos hyes, List.map_cons, List.map_cons, hmap]
        rfl
      · rcases List.mem_cons.mp hr with rfl | hr
        · exact le_rfl
        · exact hlater r hr

namespace Ledger

/-- The table tells what the channel aired, in order, and nothing of it starts after the instant
the channel is laid to. -/
structure Tells (channel : String) (l : Ledger) (aired : List (String × String)) : Prop where
  rows : (l.db.programmes channel).map (fun r => (r.seriesKey, r.entryId)) = aired
  ordered : (l.db.programmes channel).Pairwise fun a b => a.start ≤ b.start
  laid : ∀ r ∈ l.db.programmes channel, r.start ≤ l.from_

variable {channel : String} {l : Ledger} {aired : List (String × String)}

theorem programmes_append (db db' : HistoryDb) (channel : String) :
    HistoryDb.programmes (db ++ db') channel = db.programmes channel ++ db'.programmes channel := by
  unfold HistoryDb.programmes
  rw [List.filter_append, List.map_append]

theorem programmes_airings (g : Generation β) (env : FillEnv β) (channel : String) (from_ : ℤ) :
    HistoryDb.programmes (g.airings env channel from_) channel =
      g.records (g.hand env none true from_) from_ := by
  have hprogrammes : ∀ rows : List PlayRecord,
      HistoryDb.programmes (rows.map (⟨channel, .programme, ·⟩)) channel = rows := by
    intro rows
    induction rows with
    | nil => rfl
    | cons r rows ih =>
      unfold HistoryDb.programmes at ih ⊢
      simp only [List.map_cons, decide_true, Bool.and_self, List.filter_cons_of_pos, ih]
  have hbumpers : ∀ rows : List BumperRow, HistoryDb.programmes
      (rows.map fun b => ⟨channel, .bumper, ⟨b.entryId, none, b.start, false⟩⟩) channel = [] := by
    intro rows
    unfold HistoryDb.programmes
    rw [List.map_eq_nil_iff, List.filter_eq_nil_iff]
    intro a ha
    obtain ⟨b, -, rfl⟩ := List.mem_map.mp ha
    simp
  rw [Generation.airings, programmes_append, hprogrammes, hbumpers, List.append_nil]

theorem programmes_elsewhere (rows : List Airing) (channel : String) :
    HistoryDb.programmes (rows.filter (·.channel ≠ channel)) channel = [] := by
  unfold HistoryDb.programmes
  rw [List.map_eq_nil_iff, List.filter_eq_nil_iff]
  intro a ha
  have hne := of_decide_eq_true (List.mem_filter.mp ha).2
  simp [hne]

theorem Tells.take (h : l.Tells channel aired) {e : LedgerAct β} (hcloses : l.Closes e) :
    (l.take channel e).Tells channel (aired ++ l.airs e) := by
  cases e with
  | elsewhere rows =>
    have hsame : HistoryDb.programmes (l.db ++ rows.filter (·.channel ≠ channel)) channel =
        l.db.programmes channel := by
      rw [programmes_append, programmes_elsewhere, List.append_nil]
    rw [Ledger.take, Ledger.airs, List.append_nil]
    exact ⟨by rw [hsame, h.rows], by rw [hsame]; exact h.ordered, by rw [hsame]; exact h.laid⟩
  | generation g env formed =>
    unfold Ledger.take Ledger.airs
    dsimp only
    split_ifs with hspan
    · obtain ⟨hmap, hordered, hbetween⟩ := playRecords_programmes g.showIds l.from_
        (g.hand env none true l.from_).items
      have hrows : HistoryDb.programmes (l.db ++ g.airings env channel l.from_) channel =
          l.db.programmes channel ++ playRecords g.showIds l.from_
            (g.hand env none true l.from_).items := by
        rw [programmes_append, programmes_airings]
        rfl
      refine ⟨?_, ?_, ?_⟩
      · rw [hrows, List.map_append, h.rows, hmap]
        rfl
      · rw [hrows]
        refine List.pairwise_append.mpr ⟨h.ordered, hordered, fun a ha b hb => ?_⟩
        exact (h.laid a ha).trans (hbetween b hb)
      · rw [hrows]
        intro r hr
        dsimp only
        rcases List.mem_append.mp hr with hr | hr
        · have := h.laid r hr
          omega
        · exact hcloses hspan r hr
    · rw [List.append_nil]
      exact h

theorem Tells.run (h : l.Tells channel aired) {es : List (LedgerAct β)}
    (hcloses : l.AllClose channel es) :
    (l.run channel es).Tells channel (aired ++ l.aired channel es) := by
  induction es generalizing l aired with
  | nil =>
    rw [Ledger.aired, List.append_nil]
    exact h
  | cons e es ih =>
    rw [Ledger.run, Ledger.aired, ← List.append_assoc]
    exact ih (h.take hcloses.1) hcloses.2

/-- The cursor of a series names what of it aired last. -/
theorem Tells.seriesCursor (h : l.Tells channel aired) (key : String) :
    (l.db.seriesCursor channel).get key =
      (aired.filter fun e => e.1 = key).getLast?.map Prod.snd := by
  unfold HistoryDb.seriesCursor
  rw [lastByKey_get, lastRow_of_ordered (h.ordered.filter _), ← h.rows, List.filter_map,
    List.getLast?_map, Option.map_map]
  simp only [Function.comp_def, Option.some.injEq]

end Ledger

end Chain

/-- The series goes on after `last`, or from its top where its list does not hold that. -/
def Series.OpensAfter (s : Series) (last : Option EntryId) : Prop :=
  s.cursor =
    match last.bind fun id => s.ids.idxOf? id with
    | some pos => (pos + 1) % s.ids.length
    | none => 0

section Opening

variable {cat : Catalog} {v : Variety} {cfg : Pool} {ids : List EntryId}
  {constraints : Option Constraints} {state : GenerationState} {prev : Option PoolResume}
  {dice : Dice} {want : Bool} {extras : HashMap (String × EntryId) (Option ℕ)} {rt : PoolRuntime}

theorem Series.seat_opensAfter {s : Series} (h : s.cursor = 0)
    (cursor : String → Option EntryId) :
    (s.seat cursor).OpensAfter (cursor (s.seat cursor).showKey) := by
  have hsame : (s.seat cursor).showKey = s.showKey ∧ (s.seat cursor).ids = s.ids := by
    unfold Series.seat
    split
    · exact ⟨rfl, rfl⟩
    · exact ⟨rfl, rfl⟩
  unfold Series.OpensAfter
  rw [hsame.1, hsame.2]
  unfold Series.seat
  cases hpos : (cursor s.showKey).bind fun last => s.ids.idxOf? last with
  | none => exact h
  | some pos =>
    obtain ⟨id, -, hidx⟩ := Option.bind_eq_some_iff.mp hpos
    obtain ⟨hlt, -⟩ := List.idxOf?_eq_some_iff.mp hidx
    dsimp only [Series.advanceTo]
    split_ifs with hwrap
    · have : pos + 1 = s.ids.length := by omega
      rw [this, Nat.mod_self]
    · rw [Nat.mod_eq_of_lt (by omega)]

theorem resumeFrom_series {rt : PoolRuntime} (hadvance : rt.cfg.advance = .resume)
    (cursor : String → Option EntryId) (prev : Option PoolResume) :
    (rt.resumeFrom cursor prev).series = rt.series.map (Series.seat cursor) := by
  have hcontinue : ∀ (rt : PoolRuntime) (p : PoolResume), (rt.continueFrom p).series = rt.series := by
    intro rt p
    unfold PoolRuntime.continueFrom
    dsimp only
    split <;> split_ifs <;> rfl
  unfold PoolRuntime.resumeFrom
  rw [hadvance]
  cases prev with
  | none => rfl
  | some p =>
    dsimp only
    split_ifs
    · rfl
    · rw [hcontinue]

/-- A resuming pool opens each of its series after what its cursor names. -/
theorem poolRuntime_opensAfter (hadvance : cfg.advance = .resume)
    (h : poolRuntime cat v cfg ids constraints state prev dice want extras = .ok rt) :
    ∀ s ∈ rt.series, s.OpensAfter (state.cursorFor cfg s.showKey) := by
  unfold poolRuntime at h
  obtain ⟨resolved, hresolved, h⟩ := Lib.bind_eq_ok.mp h
  obtain ⟨titles, -, h⟩ := Lib.bind_eq_ok.mp h
  obtain ⟨cols, kept, hgrouped, -⟩ := resolvePoolSeries_grouped hresolved
  have hopened : ∀ {r : PoolRuntime} {seam : List EntryId}, r.series = resolved.series →
      r.cfg = cfg → (r.remember seam).resumeFrom (state.cursorFor cfg) prev = rt →
      ∀ s ∈ rt.series, s.OpensAfter (state.cursorFor cfg s.showKey) := by
    intro r seam hr hcfg heq s hs
    have hresume : (r.remember seam).cfg.advance = .resume := by
      rw [← hadvance, ← hcfg]
      unfold PoolRuntime.remember
      split_ifs <;> rfl
    rw [← heq, resumeFrom_series hresume, PoolRuntime.remember_series, hr] at hs
    obtain ⟨t, ht, rfl⟩ := List.mem_map.mp hs
    exact Series.seat_opensAfter (hgrouped.unplayed t ht).1 _
  dsimp only at h
  split_ifs at h
  · exact hopened rfl rfl (Except.ok.inj h)
  · exact hopened rfl rfl (Except.ok.inj h)

end Opening

namespace Ledger

variable {channel : String}

/-- What a generation of the channel is resolved from; the sidecar and the tail are as they are. -/
def generationState (channel : String) (l : Ledger) (resume : ResumeMap) (tail : List EntryId) :
    GenerationState where
  resume := resume
  cursor := l.db.seriesCursor channel
  globalCursor := l.db.crossChannelShowCursor
  tail := tail

theorem tells_empty (channel : String) (from_ : ℤ) : Tells channel ⟨[], from_⟩ [] where
  rows := rfl
  ordered := List.Pairwise.nil
  laid r hr := by cases hr

theorem aired_apart {es : List (LedgerAct β)} {key : String} (h : ∀ e ∈ es, e.Apart key)
    (l : Ledger) : (l.aired channel es).filter (fun e => e.1 = key) =
      (l.drawn channel es).filter fun e => e.1 = key := by
  induction es generalizing l with
  | nil => rfl
  | cons e es ih =>
    have hone : (l.airs e).filter (fun e => e.1 = key) =
        (l.draws e).filter fun e => e.1 = key := by
      cases e with
      | elsewhere rows => rfl
      | generation g env formed =>
        unfold Ledger.airs Ledger.draws
        dsimp only
        split_ifs
        · exact aired_of_apart formed (h _ List.mem_cons_self) l.from_
        · rfl
    rw [Ledger.aired, Ledger.drawn, List.filter_append, List.filter_append, hone,
      ih fun e he => h e (List.mem_cons_of_mem _ he)]

end Ledger

def HistoryDb.showRows (db : HistoryDb) (show_ : String) : List PlayRecord :=
  ((db.filter fun a => a.kind = .programme).map (·.record)).filter fun r => r.showId = some show_

/-- After any chain of generations a resuming pool opens each series after the last of its show
that aired, be it of the pattern or of the fill pass, where none ends before its last programme
begins; of a show no fill pool has an item of, that
is the last the pattern drew. A pool whose cursor is global opens it after the last on any
channel. -/
theorem resumes_after_aired (channel : String) (es : List (LedgerAct β)) (from_ : ℤ)
    {cat : Catalog} {v : Variety} {cfg : Pool} {ids : List EntryId}
    {constraints : Option Constraints} {resume : ResumeMap} {tail : List EntryId}
    {prev : Option PoolResume} {dice : Dice} {want : Bool}
    {extras : HashMap (String × EntryId) (Option ℕ)} {rt : PoolRuntime}
    (hadvance : cfg.advance = .resume)
    (hopen : poolRuntime cat v cfg ids constraints
      ((Ledger.run channel ⟨[], from_⟩ es).generationState channel resume tail) prev dice want
      extras = .ok rt) :
    (cfg.cursorScope = .channel → Ledger.AllClose channel ⟨[], from_⟩ es → ∀ s ∈ rt.series,
      s.OpensAfter (((Ledger.aired channel ⟨[], from_⟩ es).filter
        fun e => e.1 = s.showKey).getLast?.map Prod.snd) ∧
      ((∀ e ∈ es, e.Apart s.showKey) → s.OpensAfter
        (((Ledger.drawn channel ⟨[], from_⟩ es).filter
          fun e => e.1 = s.showKey).getLast?.map Prod.snd))) ∧
      (cfg.cursorScope = .global → ∀ s ∈ rt.series, s.OpensAfter
        ((lastRow ((Ledger.run channel ⟨[], from_⟩ es).db.showRows s.showKey)).map
          (·.entryId))) := by
  have hopens := poolRuntime_opensAfter hadvance hopen
  unfold GenerationState.cursorFor at hopens
  dsimp only [Ledger.generationState] at hopens
  constructor
  · intro hscope hcloses s hs
    have htells := (Ledger.tells_empty channel from_).run hcloses
    rw [hscope] at hopens
    have hfirst := hopens s hs
    dsimp only at hfirst
    rw [htells.seriesCursor, List.nil_append] at hfirst
    refine ⟨hfirst, fun hapart => ?_⟩
    rw [← Ledger.aired_apart hapart]
    exact hfirst
  · intro hscope s hs
    rw [hscope] at hopens
    have hfirst := hopens s hs
    dsimp only [HistoryDb.crossChannelShowCursor] at hfirst
    rw [lastByKey_get] at hfirst
    exact hfirst

section Examples

/-- Half-hour lines, and a fill pool with the ten minutes of `a2` in it. -/
def secondEpisodeEnv : FillEnv Unit := { shortsEnv 0 0 with
  pools := fun key => if key = (0, "shorts") then
    some [(⟨"a2", 0, .local_ "/a2.mkv" none none, none, false, ()⟩, 600000000000)] else none }

/-- The pattern drew the twenty minutes of `a1`, the first episode of a show. -/
def firstEpisode : Generation Unit where
  laid :=
    { items := [⟨"a1", 0, .local_ "/a1.mkv" none none, none, false, ()⟩]
      durations := [1200000000000]
      progress := [{}] }
  endProgress := {}
  showIds id := if id ∈ ["a1", "a2"] then some "A" else none

def firstEpisodeAired : List (LedgerAct Unit) :=
  [.generation firstEpisode secondEpisodeEnv ⟨rfl, rfl⟩]

theorem firstEpisode_closes : Ledger.AllClose "one" ⟨[], 0⟩ firstEpisodeAired := by
  refine ⟨Ledger.closes_of_long _ ⟨rfl, rfl⟩ ?_ ?_, trivial⟩ <;> decide +kernel

def openAfterFirst : Except String PoolRuntime :=
  poolRuntime shelfCatalog { dice := fun _ _ => { seed := 7 } }
    { name := "p", expr := some "series", advance := .resume } ["a1", "b1", "a2", "b2", "b3"] none
    ((Ledger.run "one" ⟨[], 0⟩ firstEpisodeAired).generationState "one" {} []) none { seed := 7 }
    false ∅

theorem openAfterFirst_ok {P : PoolRuntime → Bool}
    (h : (match openAfterFirst with | .ok rt => P rt | .error _ => false) = true) :
    ∃ rt, openAfterFirst = .ok rt ∧ P rt = true := by
  cases hopen : openAfterFirst with
  | error e =>
    rw [hopen] at h
    cases h
  | ok rt =>
    rw [hopen] at h
    exact ⟨rt, rfl, h⟩

instance (s : Series) (last : Option EntryId) : Decidable (s.OpensAfter last) :=
  inferInstanceAs (Decidable (s.cursor = _))

/-- The show went on to its last episode in the gap, so it starts over. -/
theorem resumes_after_aired_first : ∃ rt, openAfterFirst = .ok rt ∧ ∀ s ∈ rt.series,
    s.OpensAfter (((Ledger.aired "one" ⟨[], 0⟩ firstEpisodeAired).filter
      fun e => e.1 = s.showKey).getLast?.map Prod.snd) := by
  obtain ⟨rt, hopen, -⟩ := openAfterFirst_ok (P := fun _ => true) (by decide +kernel)
  refine ⟨rt, hopen, fun s hs => ?_⟩
  exact ((resumes_after_aired "one" firstEpisodeAired 0 rfl hopen).1 rfl firstEpisode_closes s hs).1

/-- The pattern drew `a1` last, and its show does not open on `a2`. -/
theorem filler_moves_series : ∃ rt, openAfterFirst = .ok rt ∧ ∃ s ∈ rt.series,
    ((Ledger.drawn "one" ⟨[], 0⟩ firstEpisodeAired).filter
      fun e => e.1 = s.showKey).getLast?.map Prod.snd = some "a1" ∧ s.ids = ["a1", "a2"] ∧
    ¬ s.OpensAfter (some "a1") := by
  obtain ⟨rt, hopen, hany⟩ := openAfterFirst_ok
    (P := fun rt => rt.series.any fun s =>
      decide (((Ledger.drawn "one" ⟨[], 0⟩ firstEpisodeAired).filter
        fun e => e.1 = s.showKey).getLast?.map Prod.snd = some "a1") &&
      decide (s.ids = ["a1", "a2"]) && decide (¬ s.OpensAfter (some "a1"))) (by decide +kernel)
  obtain ⟨s, hs, hdrawn⟩ := List.any_eq_true.mp hany
  rw [Bool.and_eq_true, Bool.and_eq_true, decide_eq_true_iff, decide_eq_true_iff,
    decide_eq_true_iff] at hdrawn
  exact ⟨rt, hopen, s, hs, hdrawn.1.1, hdrawn.1.2, hdrawn.2⟩

end Examples

end EtvStation
