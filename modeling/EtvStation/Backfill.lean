import EtvStation.Simulate

/-! The repair of a channel's airings from the playout files on disk. -/
namespace EtvStation

open Simulate (table)

variable {β : Type}

/-- What one channel's repair did: the airings found, the rows written or to be written, and the
span these cover. -/
structure ChannelRepair where
  channel : String
  onDisk : ℕ := 0
  inserted : ℕ := 0
  filledFrom : Option ℤ := none
  filledTo : Option ℤ := none
  deriving DecidableEq, Repr

def PlayRecord.key (r : PlayRecord) : String × ℤ := (r.entryId, r.start)

namespace HistoryDb

variable (db : HistoryDb) (channel : String)

def onChannel : HistoryDb := db.filter fun a => a.channel = channel

def airingKeys : List (String × ℤ) := (db.onChannel channel).map (·.record.key)

/-- The records not held, each airing once. -/
def unheld (present seen : List (String × ℤ)) : List PlayRecord → List PlayRecord
  | [] => []
  | r :: rest =>
    if !present.contains r.key && !seen.contains r.key then
      r :: unheld present (r.key :: seen) rest
    else unheld present seen rest

/-- Which of `records` the ledger does not already hold, in schedule order. -/
def missingRecords (records : List PlayRecord) : List PlayRecord :=
  (unheld (db.airingKeys channel) [] records).insertionSort fun a b => a.start ≤ b.start

def recordMissing (records : List PlayRecord) : HistoryDb × ℕ :=
  go (db.airingKeys channel) db 0 records
where
  go (present : List (String × ℤ)) (db : HistoryDb) (inserted : ℕ) :
      List PlayRecord → HistoryDb × ℕ
    | [] => (db, inserted)
    | r :: rest =>
      if present.contains r.key then go present db inserted rest
      else go (r.key :: present) (db ++ [⟨channel, .programme, r⟩]) (inserted + 1) rest

end HistoryDb

/-- What a folder's files hold, in the order they start. -/
def storedItems (os : Os β) (folder : Folder β) : Except Fault (List (PlayoutItem β)) := do
  let files := (scanOutputFolder os folder).insertionSort fun a b => a.start ≤ b.start
  let items ← files.mapM ChunkFile.read
  return items.flatten

/-- A stored item as a row: a file does not say whether its slot showed an error card. -/
def PlayoutItem.record (showIds : String → Option String) (a : PlayoutItem β) : PlayRecord :=
  ⟨a.id, showIds a.id, a.start, false⟩

def ChannelRepair.of (name : String) (onDisk inserted : ℕ) (missing : List PlayRecord) :
    ChannelRepair :=
  ⟨name, onDisk, inserted, missing.head?.map (·.start), missing.getLast?.map (·.start)⟩

/-- `showIds` is what the catalog says, nothing without one. -/
def repairChannel (os : Os β) (folder : Folder β) (showIds : String → Option String)
    (name : String) (db : HistoryDb) (dryRun : Bool) :
    Except Fault (ChannelRepair × HistoryDb) := do
  let items ← storedItems os folder
  if items.isEmpty then return ({ channel := name }, db)
  let records := items.map (·.record showIds)
  let missing := db.missingRecords name records
  if dryRun then return (.of name records.length missing.length missing, db)
  let (db, inserted) := db.recordMissing name records
  return (.of name records.length inserted missing, db)

section Unheld

variable {present seen : List (String × ℤ)} {records : List PlayRecord}

theorem unheld_sublist : (HistoryDb.unheld present seen records).Sublist records := by
  induction records generalizing seen with
  | nil => exact List.Sublist.refl _
  | cons r rest ih =>
    rw [HistoryDb.unheld]
    split_ifs
    · exact ih.cons_cons r
    · exact ih.cons r

theorem unheld_new : ∀ r ∈ HistoryDb.unheld present seen records,
    r.key ∉ present ∧ r.key ∉ seen := by
  induction records generalizing seen with
  | nil => exact fun r hr => absurd hr List.not_mem_nil
  | cons r rest ih =>
    rw [HistoryDb.unheld]
    split_ifs with hnew
    · intro r' hr'
      rcases List.mem_cons.mp hr' with rfl | hr'
      · simpa using hnew
      · exact ⟨(ih r' hr').1, fun hin => (ih r' hr').2 (List.mem_cons_of_mem _ hin)⟩
    · exact ih

theorem unheld_nodup : ((HistoryDb.unheld present seen records).map PlayRecord.key).Nodup := by
  induction records generalizing seen with
  | nil => exact List.nodup_nil
  | cons r rest ih =>
    rw [HistoryDb.unheld]
    split_ifs
    · rw [List.map_cons, List.nodup_cons]
      refine ⟨fun hin => ?_, ih⟩
      obtain ⟨r', hr', hkey⟩ := List.mem_map.mp hin
      exact (unheld_new r' hr').2 (hkey ▸ List.mem_cons_self)
    · exact ih

/-- Every record's airing is held, or is one of those not held. -/
theorem key_mem_unheld {r : PlayRecord} (hr : r ∈ records) : r.key ∈ present ∨ r.key ∈ seen ∨
    r.key ∈ (HistoryDb.unheld present seen records).map PlayRecord.key := by
  induction records generalizing seen with
  | nil => exact absurd hr List.not_mem_nil
  | cons r' rest ih =>
    rw [HistoryDb.unheld]
    split_ifs with hnew
    · rw [List.map_cons, List.mem_cons]
      rcases List.mem_cons.mp hr with rfl | hr
      · exact Or.inr (Or.inr (Or.inl rfl))
      · rcases ih hr with hin | hin | hin
        · exact Or.inl hin
        · rcases List.mem_cons.mp hin with heq | hin
          · exact Or.inr (Or.inr (Or.inl heq))
          · exact Or.inr (Or.inl hin)
        · exact Or.inr (Or.inr (Or.inr hin))
    · rcases List.mem_cons.mp hr with rfl | hr
      · simp only [Bool.and_eq_true, Bool.not_eq_true', List.contains_eq_mem,
          decide_eq_false_iff_not, not_and, not_not] at hnew
        exact or_iff_not_imp_left.mpr fun hpresent => Or.inl (hnew hpresent)
      · exact ih hr

/-- The insert writes what the report names. -/
theorem recordMissing_go (channel : String) (db : HistoryDb) (inserted : ℕ)
    (records : List PlayRecord) :
    HistoryDb.recordMissing.go channel (seen ++ present) db inserted records =
      (db ++ table channel (HistoryDb.unheld present seen records),
        inserted + (HistoryDb.unheld present seen records).length) := by
  induction records generalizing seen db inserted with
  | nil => simp [HistoryDb.recordMissing.go, HistoryDb.unheld, table]
  | cons r rest ih =>
    rw [HistoryDb.recordMissing.go, HistoryDb.unheld]
    by_cases hheld : r.key ∈ seen ++ present
    · rw [if_pos (by simpa using hheld), if_neg, ih]
      simp only [Bool.and_eq_true, Bool.not_eq_true', List.contains_eq_mem,
        decide_eq_false_iff_not, not_and, not_not]
      exact fun hpresent => (List.mem_append.mp hheld).resolve_right hpresent
    · rw [if_neg (by simpa using hheld), if_pos, ← List.cons_append, ih]
      · simp only [table, List.map_cons, List.append_assoc, List.singleton_append, List.length_cons,
          Prod.mk.injEq, true_and]
        omega
      · rw [List.mem_append, not_or] at hheld
        simpa using ⟨hheld.2, hheld.1⟩

theorem recordMissing_eq (db : HistoryDb) (channel : String) (records : List PlayRecord) :
    db.recordMissing channel records =
      (db ++ table channel (HistoryDb.unheld (db.airingKeys channel) [] records),
        (HistoryDb.unheld (db.airingKeys channel) [] records).length) := by
  have := @recordMissing_go (db.airingKeys channel) [] channel db 0 records
  rwa [List.nil_append, Nat.zero_add] at this

end Unheld

/-- A row without what a playout file does not tell. -/
def PlayRecord.blank (r : PlayRecord) : PlayRecord := { r with errorCard := false }

section Cursors

variable {rows rows' : List PlayRecord}

theorem lastRow_eq_none (h : lastRow rows = none) : rows = [] := by
  induction rows using List.reverseRecOn with
  | nil => rfl
  | append_singleton rows x _ =>
    rw [lastRow_append] at h
    unfold later at h
    split at h
    · split_ifs at h
    · cases h

theorem lastRow_max {r : PlayRecord} (h : lastRow rows = some r) :
    ∀ x ∈ rows, x.start ≤ r.start := by
  induction rows using List.reverseRecOn generalizing r with
  | nil => cases h
  | append_singleton rows x ih =>
    rw [lastRow_append] at h
    intro y hy
    rw [List.mem_append, List.mem_singleton] at hy
    cases hlast : lastRow rows with
    | none =>
      rw [hlast] at h
      obtain rfl := Option.some.inj h
      rcases hy with hy | rfl
      · rw [lastRow_eq_none hlast] at hy
        cases hy
      · exact le_rfl
    | some b =>
      have hmax := ih hlast
      rw [hlast, later] at h
      split_ifs at h with hle <;> obtain rfl := Option.some.inj h
      · rcases hy with hy | rfl
        · exact (hmax y hy).trans hle
        · exact le_rfl
      · rcases hy with hy | rfl
        · exact hmax y hy
        · omega

/-- With no two rows at one instant the order they were inserted in does not matter. -/
theorem lastRow_perm (h : rows.Perm rows') (hstarts : (rows.map (·.start)).Nodup) :
    lastRow rows = lastRow rows' := by
  cases hlast : lastRow rows with
  | none =>
    have hnil := lastRow_eq_none hlast
    rw [hnil] at h
    rw [List.nil_perm.mp h]
    rfl
  | some r =>
    cases hlast' : lastRow rows' with
    | none =>
      rw [lastRow_eq_none hlast'] at h
      rw [List.perm_nil.mp h] at hlast
      cases hlast
    | some r' =>
      have hr := lastRow_mem hlast
      have hr' := h.mem_iff.mpr (lastRow_mem hlast')
      have hle := lastRow_max hlast r' hr'
      have hle' := lastRow_max hlast' r (h.mem_iff.mp hr)
      rw [List.inj_on_of_nodup_map hstarts hr hr' (le_antisymm hle' hle)]

theorem lastRow_blank (rows : List PlayRecord) :
    lastRow (rows.map PlayRecord.blank) = (lastRow rows).map PlayRecord.blank := by
  induction rows using List.reverseRecOn with
  | nil => rfl
  | append_singleton rows r ih =>
    rw [List.map_append, List.map_singleton, lastRow_append, lastRow_append, ih]
    cases lastRow rows with
    | none => rfl
    | some b =>
      rw [Option.map_some, later, later]
      split_ifs <;> first | rfl | contradiction

theorem seriesKey_blank (r : PlayRecord) : r.blank.seriesKey = r.seriesKey := rfl

/-- Cursors read off rows that differ in their order and their error cards alone are the same. -/
theorem lastByKey_blank {key : PlayRecord → Option String} (hkey : ∀ r, key r.blank = key r)
    (h : (rows.map PlayRecord.blank).Perm (rows'.map PlayRecord.blank))
    (hstarts : (rows.map (·.start)).Nodup) : lastByKey key rows = lastByKey key rows' := by
  refine BTreeMap.ext_get (lastByKey_keyed _ _) (lastByKey_keyed _ _) (BTreeMap.collect_sorted _)
    (BTreeMap.collect_sorted _) fun k => ?_
  rw [lastByKey_get, lastByKey_get]
  have hblank : ∀ l : List PlayRecord,
      (l.filter fun r => key r = some k).map PlayRecord.blank =
        (l.map PlayRecord.blank).filter fun r => key r = some k := by
    intro l
    rw [List.filter_map]
    refine congrArg _ (List.filter_congr fun r _ => ?_)
    rw [Function.comp_apply, hkey]
  have hread : ∀ l : List PlayRecord, (lastRow l).map (·.entryId) =
      (lastRow (l.map PlayRecord.blank)).map (·.entryId) := by
    intro l
    rw [lastRow_blank, Option.map_map]
    rfl
  rw [hread, hread (rows'.filter _), hblank, hblank]
  refine congrArg _ (lastRow_perm (h.filter _) ?_)
  have hmap : (rows.map PlayRecord.blank).map (·.start) = rows.map (·.start) := by
    rw [List.map_map]
    rfl
  exact (hmap ▸ hstarts).sublist (List.filter_sublist.map _)

theorem sorted_blank (h : (rows.map PlayRecord.blank).Perm (rows'.map PlayRecord.blank))
    (hstarts : (rows.map (·.start)).Nodup) :
    (rows.insertionSort fun a b => a.start ≤ b.start).map (·.entryId) =
      (rows'.insertionSort fun a b => a.start ≤ b.start).map (·.entryId) := by
  have hblank : ∀ l : List PlayRecord,
      (l.insertionSort fun a b => a.start ≤ b.start).map (·.entryId) =
        ((l.map PlayRecord.blank).insertionSort fun a b => a.start ≤ b.start).map
          (·.entryId) := by
    intro l
    rw [← List.map_insertionSort (fun a b => a.start ≤ b.start) (fun a b => a.start ≤ b.start)
      PlayRecord.blank l fun a _ b _ => Iff.rfl, List.map_map]
    rfl
  rw [hblank, hblank rows']
  refine congrArg _ ?_
  have hmap : (rows.map PlayRecord.blank).map (·.start) = rows.map (·.start) := by
    rw [List.map_map]
    rfl
  have hperm := ((List.perm_insertionSort (fun a b : PlayRecord => a.start ≤ b.start) _).trans
    h).trans (List.perm_insertionSort (fun a b : PlayRecord => a.start ≤ b.start) _).symm
  refine hperm.eq_of_pairwise (fun a b ha hb hab hba => ?_) (List.pairwise_insertionSort _ _)
    (List.pairwise_insertionSort _ _)
  have ha' := (List.mem_insertionSort _).mp ha
  have hb' := h.mem_iff.mpr ((List.mem_insertionSort _).mp hb)
  exact List.inj_on_of_nodup_map (hmap ▸ hstarts) ha' hb' (le_antisymm hab hba)

end Cursors

section Repair

variable {os : Os β} {folder : Folder β} {showIds : String → Option String} {name : String}
  {db db' : HistoryDb} {items : List (PlayoutItem β)} {report : ChannelRepair}

def repaired (showIds : String → Option String) (name : String) (db : HistoryDb)
    (items : List (PlayoutItem β)) : List PlayRecord :=
  HistoryDb.unheld (db.airingKeys name) [] (items.map (·.record showIds))

theorem repairChannel_ok (hitems : storedItems os folder = .ok items) (dryRun : Bool) :
    ∃ report, repairChannel os folder showIds name db dryRun =
        .ok (report, if dryRun then db
          else db ++ table name (repaired showIds name db items)) ∧
      report.onDisk = items.length ∧ report.inserted = (repaired showIds name db items).length := by
  unfold repairChannel
  rw [hitems]
  by_cases hempty : items.isEmpty
  · obtain rfl := List.isEmpty_iff.mp hempty
    refine ⟨{ channel := name }, ?_, rfl, rfl⟩
    have hnone : table name (repaired showIds name db ([] : List (PlayoutItem β))) = [] := rfl
    rw [hnone, List.append_nil, ite_self]
    rfl
  · rw [Bool.not_eq_true] at hempty
    have hsorted : (db.missingRecords name (items.map (·.record showIds))).length =
        (repaired showIds name db items).length := List.length_insertionSort _ _
    refine ⟨.of name (items.map (·.record showIds)).length (repaired showIds name db items).length
      (db.missingRecords name (items.map (·.record showIds))), ?_, List.length_map _, rfl⟩
    cases dryRun with
    | true =>
      simp only [bind, Except.bind, hempty, ← hsorted]
      rfl
    | false =>
      simp only [bind, Except.bind, hempty, recordMissing_eq]
      rfl

theorem airingKeys_append (db db' : HistoryDb) (name : String) :
    (db ++ db').airingKeys name = db.airingKeys name ++ db'.airingKeys name := by
  rw [HistoryDb.airingKeys, HistoryDb.onChannel, List.filter_append, List.map_append]
  rfl

theorem airingKeys_rows (name : String) (rows : List PlayRecord) :
    (table name rows).airingKeys name = rows.map PlayRecord.key := by
  have hall : (table name rows).onChannel name = table name rows :=
    List.filter_eq_self.mpr fun a ha => by
      obtain ⟨r, -, rfl⟩ := List.mem_map.mp ha
      exact decide_eq_true rfl
  rw [HistoryDb.airingKeys, hall, table, List.map_map]
  rfl

/-- An airing on disk is held, or written by the repair. -/
theorem key_held_or_repaired (db : HistoryDb) (showIds : String → Option String) (name : String)
    {item : PlayoutItem β} (hitem : item ∈ items) :
    (item.id, item.start) ∈ db.airingKeys name ∨
      (item.id, item.start) ∈ (repaired showIds name db items).map PlayRecord.key := by
  have hrecord : item.record showIds ∈ items.map (·.record showIds) :=
    List.mem_map.mpr ⟨item, hitem, rfl⟩
  rcases @key_mem_unheld (db.airingKeys name) [] _ _ hrecord with hin | hin | hin
  · exact Or.inl hin
  · cases hin
  · exact Or.inr hin

/-- A repaired ledger holds every airing on disk. -/
theorem key_mem_repaired {item : PlayoutItem β} (hitem : item ∈ items) : (item.id, item.start) ∈
    (db ++ table name (repaired showIds name db items)).airingKeys name := by
  rw [airingKeys_append, airingKeys_rows, List.mem_append]
  exact key_held_or_repaired db showIds name hitem

/-- There is nothing left to repair in a repaired ledger. -/
theorem repaired_again (db : HistoryDb) (showIds : String → Option String) (name : String)
    (items : List (PlayoutItem β)) : repaired showIds name
      (db ++ table name (repaired showIds name db items)) items = [] := by
  refine List.eq_nil_iff_forall_not_mem.mpr fun r hr => ?_
  obtain ⟨item, hitem, rfl⟩ := List.mem_map.mp (unheld_sublist.subset hr)
  exact (unheld_new _ hr).1 (key_mem_repaired hitem)

/-- A ledger with a row for every airing on disk, no two at one instant, and which of its rows are
lost: programmes that are on disk, of the shows the catalog says. -/
structure Damage (showIds : String → Option String) (name : String) (items : List (PlayoutItem β))
    (db : HistoryDb) (lost : Airing → Bool) : Prop where
  starts : ((db.onChannel name).map (·.record.start)).Nodup
  told : ∀ item ∈ items, ∃ r ∈ db.programmes name, r.key = (item.id, item.start)
  lost : ∀ a ∈ db, lost a → a.channel = name ∧ a.kind = .programme ∧
    a.record.showId = showIds a.record.entryId ∧
      ∃ item ∈ items, a.record.key = (item.id, item.start)

variable {lost : Airing → Bool}

theorem mem_programmes {r : PlayRecord} : r ∈ db.programmes name ↔
    ∃ a ∈ db, a.channel = name ∧ a.kind = .programme ∧ a.record = r := by
  simp [HistoryDb.programmes, List.mem_map, List.mem_filter, and_assoc]

/-- No two airings of the channel are at one instant. -/
theorem Damage.inj (h : Damage showIds name items db lost) {a b : Airing} (ha : a ∈ db)
    (hb : b ∈ db) (hac : a.channel = name) (hbc : b.channel = name)
    (hstart : a.record.start = b.record.start) : a = b :=
  List.inj_on_of_nodup_map h.starts (List.mem_filter.mpr ⟨ha, decide_eq_true hac⟩)
    (List.mem_filter.mpr ⟨hb, decide_eq_true hbc⟩) hstart

/-- What the repair writes is what was lost, but for the error cards. -/
theorem Damage.mem_repaired (h : Damage showIds name items db lost) {r : PlayRecord} :
    r ∈ repaired showIds name (db.filter (!lost ·)) items ↔
      ∃ a ∈ db, lost a ∧ a.record.blank = r := by
  constructor
  · intro hr
    obtain ⟨item, hitem, rfl⟩ := List.mem_map.mp (unheld_sublist.subset hr)
    obtain ⟨r, hrow, hkey⟩ := h.told item hitem
    obtain ⟨a, ha, hchannel, -, rfl⟩ := mem_programmes.mp hrow
    have hlost : lost a = true := by
      by_contra hkept
      refine (unheld_new _ hr).1 (List.mem_map.mpr ⟨a, List.mem_filter.mpr
        ⟨List.mem_filter.mpr ⟨ha, by simpa using hkept⟩, decide_eq_true hchannel⟩, hkey⟩)
    obtain ⟨hid, hstart⟩ := Prod.mk.inj hkey
    refine ⟨a, ha, hlost, ?_⟩
    have hshow := (h.lost a ha hlost).2.2.1
    rw [PlayRecord.blank, hshow, hid, hstart]
    rfl
  · rintro ⟨a, ha, hlost, rfl⟩
    obtain ⟨hchannel, -, hshow, item, hitem, hkey⟩ := h.lost a ha hlost
    rcases key_held_or_repaired (db.filter (!lost ·)) showIds name hitem with hin | hin
    · -- Another row of the channel at the same instant would be this one.
      obtain ⟨b, hb, hkey'⟩ := List.mem_map.mp hin
      obtain ⟨hb, hbc⟩ := List.mem_filter.mp hb
      obtain ⟨hb, hkept⟩ := List.mem_filter.mp hb
      have hstart := (congrArg Prod.snd hkey').trans (congrArg Prod.snd hkey).symm
      rw [h.inj hb ha (of_decide_eq_true hbc) hchannel hstart, hlost] at hkept
      cases hkept
    · obtain ⟨r, hr, hkey'⟩ := List.mem_map.mp hin
      obtain ⟨item', -, rfl⟩ := List.mem_map.mp (unheld_sublist.subset hr)
      obtain ⟨hid', hstart'⟩ := Prod.mk.inj hkey'
      obtain ⟨hid, hstart⟩ := Prod.mk.inj hkey
      have hsame : a.record.blank = item'.record showIds := by
        rw [PlayRecord.blank, hshow, hid, hstart, ← hid', ← hstart']
        rfl
      rwa [hsame]

theorem Damage.lost_nodup (h : Damage showIds name items db lost) :
    ((db.filter lost).map fun a => a.record.blank).Nodup := by
  have hsub : (db.filter lost).Sublist (db.onChannel name) := by
    have hall : (db.filter lost).filter (fun a => a.channel = name) = db.filter lost :=
      List.filter_eq_self.mpr fun a ha =>
        decide_eq_true (h.lost a (List.mem_filter.mp ha).1 (List.mem_filter.mp ha).2).1
    rw [← hall, HistoryDb.onChannel]
    exact List.filter_sublist.filter _
  refine List.Nodup.of_map (·.start) ?_
  rw [List.map_map]
  exact h.starts.sublist (hsub.map _)

theorem Damage.repaired_perm (h : Damage showIds name items db lost) :
    (repaired showIds name (db.filter (!lost ·)) items).Perm
      ((db.filter lost).map fun a => a.record.blank) := by
  have hnodup : (repaired showIds name (db.filter (!lost ·)) items).Nodup :=
    List.Nodup.of_map _ unheld_nodup
  refine (List.perm_ext_iff_of_nodup hnodup h.lost_nodup).mpr fun r => ?_
  rw [h.mem_repaired, List.mem_map]
  simp only [List.mem_filter, and_assoc]

theorem programmes_onChannel (db : HistoryDb) (name : String) : db.programmes name =
    ((db.onChannel name).filter fun a => a.kind = .programme).map (·.record) := by
  rw [HistoryDb.onChannel, List.filter_filter]
  exact congrArg _ (List.filter_congr fun a _ => Bool.and_comm _ _)

theorem programmes_table (name : String) (rows : List PlayRecord) :
    (table name rows).programmes name = rows := by
  simp [HistoryDb.programmes, table, List.filter_map, Function.comp_def]

/-- The repaired rows are those there were before the damage, but for the error cards. -/
theorem Damage.restored (h : Damage showIds name items db lost) :
    ((db.programmes name).map PlayRecord.blank).Perm
      ((HistoryDb.programmes (db.filter (!lost ·) ++
        table name (repaired showIds name (db.filter (!lost ·)) items)) name).map
          PlayRecord.blank) := by
  rw [Ledger.programmes_append, programmes_table, List.map_append]
  have hsplit : (HistoryDb.programmes (db.filter (!lost ·)) name ++
      HistoryDb.programmes (db.filter lost) name).Perm (db.programmes name) := by
    rw [← Ledger.programmes_append]
    refine ((List.Perm.filter _ ?_).map _)
    exact List.perm_append_comm.trans (List.filter_append_perm lost db)
  have hlost : HistoryDb.programmes (db.filter lost) name = (db.filter lost).map (·.record) := by
    unfold HistoryDb.programmes
    refine congrArg _ (List.filter_eq_self.mpr fun a ha => ?_)
    obtain ⟨hchannel, hkind, -⟩ := h.lost a (List.mem_filter.mp ha).1 (List.mem_filter.mp ha).2
    rw [hchannel, hkind]
    simp
  refine ((hsplit.symm.map _).trans (List.Perm.of_eq List.map_append)).trans
    (List.Perm.append_left _ ?_)
  rw [hlost, List.map_map]
  refine ((h.repaired_perm.map PlayRecord.blank).trans (List.Perm.of_eq ?_)).symm
  rw [List.map_map]
  rfl

theorem Damage.programmes_starts (h : Damage showIds name items db lost) :
    ((db.programmes name).map (·.start)).Nodup := by
  rw [programmes_onChannel, List.map_map]
  exact h.starts.sublist (List.filter_sublist.map _)

/-- A repair brings back every cursor and every tail of the channel, writes a row for each that was
lost and no other, and finds nothing to do again. -/
theorem Damage.repairs (h : Damage showIds name items db lost)
    (hitems : storedItems os folder = .ok items) : ∃ report again after,
      repairChannel os folder showIds name (db.filter (!lost ·)) false = .ok (report, after) ∧
      report.inserted = (db.filter lost).length ∧
      after.seriesCursor name = db.seriesCursor name ∧
      (∀ n, after.tail name n = db.tail name n) ∧
      (∀ other ≠ name, after.programmes other = db.programmes other) ∧
      repairChannel os folder showIds name after false = .ok (again, after) ∧
      again.inserted = 0 := by
  obtain ⟨report, hrepair, -, hinserted⟩ := @repairChannel_ok _ os folder showIds name
    (db.filter (!lost ·)) items hitems false
  set after := db.filter (!lost ·) ++
    table name (repaired showIds name (db.filter (!lost ·)) items) with hafter
  obtain ⟨again, hagain, -, hnone⟩ := @repairChannel_ok _ os folder showIds name after items
    hitems false
  have hdone : repaired showIds name after items = [] := repaired_again _ _ _ _
  refine ⟨report, again, after, hrepair, ?_, ?_, ?_, ?_, ?_, ?_⟩
  · rw [hinserted, h.repaired_perm.length_eq, List.length_map]
  · exact (lastByKey_blank (fun r => congrArg some (seriesKey_blank r)) h.restored
      h.programmes_starts).symm
  · intro n
    rw [HistoryDb.tail, HistoryDb.tail, sorted_blank h.restored h.programmes_starts]
  · intro other hother
    rw [hafter, Ledger.programmes_append]
    have hnothing : (table name (repaired showIds name (db.filter (!lost ·)) items)).programmes
        other = [] := by
      simp [HistoryDb.programmes, table, List.filter_map, Function.comp_def, hother.symm]
    have hkept : HistoryDb.programmes (db.filter (!lost ·)) other = db.programmes other := by
      unfold HistoryDb.programmes
      rw [List.filter_filter]
      refine congrArg _ (List.filter_congr fun a ha => ?_)
      by_cases hlost : lost a
      · have hne : a.channel ≠ other := (h.lost a ha hlost).1 ▸ hother.symm
        simp [hne]
      · simp [hlost]
    rw [hnothing, List.append_nil, hkept]
  · rw [hagain, hdone]
    simp [table]
  · rw [hnone, hdone]
    rfl

end Repair

section Run

variable {os : Os β} {grid : ChunkGrid} {p : Point β} {lo last : ℤ} {at_ : Store β × ResumeMap}

/-- What the files of a standing schedule hold are items of it. -/
theorem Standing.storedItems {all : List (PlayoutItem β)} {folder : Folder β} {end_ : ℤ}
    (h : Standing grid last end_ all folder) (os : Os β) :
    ∃ items, EtvStation.storedItems os folder = .ok items ∧
      ∀ a, a ∈ items ↔ ∃ f ∈ folder, a ∈ f.items.getD [] := by
  set files := (scanOutputFolder os folder).insertionSort fun a b => a.start ≤ b.start with hfiles
  have hmem : ∀ f, f ∈ files ↔ f ∈ folder := fun f =>
    (List.mem_insertionSort _).trans (mem_scanOutputFolder os)
  have hread : files.mapM ChunkFile.read = .ok (files.map fun f => f.items.getD []) :=
    mapM_read.mpr ⟨fun f hf => by rw [h.items ((hmem f).mp hf)]; rfl, rfl⟩
  refine ⟨(files.map fun f => f.items.getD []).flatten, ?_, fun a => ?_⟩
  · rw [EtvStation.storedItems, ← hfiles, hread]
    rfl
  · simp only [List.mem_flatten, List.mem_map, exists_exists_and_eq_and, hmem]

/-- No two items of a schedule that take time begin at one instant. -/
theorem Standing.starts {all : List (PlayoutItem β)} {folder : Folder β} {end_ : ℤ}
    (h : Standing grid last end_ all folder) : (all.map (·.start)).Nodup := by
  obtain ⟨start, -, hcovers⟩ := h.covers
  refine List.pairwise_map.mpr ((List.Pairwise.and_mem.mp hcovers.pairwise).imp fun hab => ?_)
  have := h.positive _ hab.1
  omega

/-- Whatever rows of stored programmes a channel's ledger loses after any run of its ticks, the
repair brings back: each of them once, every cursor and every tail as before the loss, the other
channels as they are, and nothing more when it runs again. -/
theorem rolled_repaired (h : Rolled os grid p lo last at_) (hremoves : ∀ f, os.removes f)
    (hdisk : p.disk = {}) (hfrom : p.from_ = lo) (hresume : p.resume = {})
    {db : HistoryDb} {name : String} (hrows : db.onChannel name = table name at_.1.ledger)
    (hprogrammes : ∀ f ∈ at_.1.folder, ∀ a ∈ f.items.getD [],
      (a.id, a.start) ∈ at_.1.ledger.map PlayRecord.key)
    {showIds : String → Option String} {lost : Airing → Bool}
    (hlost : ∀ a ∈ db, lost a → a.channel = name ∧ a.record.showId = showIds a.record.entryId ∧
      ∃ f ∈ at_.1.folder, ∃ item ∈ f.items.getD [], a.record.key = (item.id, item.start)) :
    ∃ report again after,
      repairChannel os at_.1.folder showIds name (db.filter (!lost ·)) false =
        .ok (report, after) ∧
      report.inserted = (db.filter lost).length ∧
      after.seriesCursor name = db.seriesCursor name ∧
      (∀ n, after.tail name n = db.tail name n) ∧
      (∀ other ≠ name, after.programmes other = db.programmes other) ∧
      repairChannel os at_.1.folder showIds name after false = .ok (again, after) ∧
      again.inserted = 0 := by
  have hempty : Standing grid lo p.from_ [] p.disk.folder := by
    rw [hdisk]
    exact ⟨⟨lo, le_rfl, hfrom.symm⟩, by simp, fun _ => [], stored_nil, fun _ _ => Or.inl rfl⟩
  obtain ⟨rule, q, hq, -, -, -, hext⟩ := h.extends hremoves hempty hfrom.ge (fun _ => hfrom)
    (by rw [hdisk, hresume])
  have hstanding := hext.standing
  rw [hq, List.nil_append] at hstanding
  obtain ⟨items, hitems, hmem⟩ := hstanding.storedItems os
  have hkeys : at_.1.ledger.map PlayRecord.key = programmes rule p.from_ := by
    have := hext.rows
    rw [hq, hdisk, List.map_nil, List.nil_append] at this
    exact this
  have hledger : db.programmes name = at_.1.ledger := by
    have hall : (table name at_.1.ledger).filter (fun a => a.kind = .programme) =
        table name at_.1.ledger := List.filter_eq_self.mpr fun a ha => by
      obtain ⟨r, -, rfl⟩ := List.mem_map.mp ha
      rfl
    rw [programmes_onChannel, hrows, hall, table, List.map_map]
    exact List.map_id _
  refine Damage.repairs ⟨?_, fun item hitem => ?_, fun a ha hgone => ?_⟩ hitems
  · have hstarts : (table name at_.1.ledger).map (·.record.start) =
        (programmes rule p.from_).map Prod.snd := by
      rw [← hkeys, table, List.map_map, List.map_map]
      rfl
    rw [hrows, hstarts]
    exact hstanding.starts.sublist (programmes_starts rule p.from_)
  · obtain ⟨f, hf, hitem⟩ := (hmem item).mp hitem
    obtain ⟨r, hr, hkey⟩ := List.mem_map.mp (hprogrammes f hf item hitem)
    exact ⟨r, hledger ▸ hr, hkey⟩
  · obtain ⟨hchannel, hshow, f, hf, item, hitem, hkey⟩ := hlost a ha hgone
    have hin : a ∈ table name at_.1.ledger :=
      hrows ▸ List.mem_filter.mpr ⟨ha, decide_eq_true hchannel⟩
    obtain ⟨r, -, rfl⟩ := List.mem_map.mp hin
    exact ⟨hchannel, rfl, hshow, item, (hmem item).mpr ⟨f, hf, hitem⟩, hkey⟩

/-- The ledger of the hourly channel loses what it has of "b". -/
theorem rolled_repaired_hourly : ∃ (disk : Store Unit) (report : ChannelRepair)
    (after : HistoryDb), disk.ledger.map (·.entryId) = ["a", "b"] ∧
      repairChannel (plainOs Unit) disk.folder (fun _ => none) "one"
        ((table "one" disk.ledger).filter fun a => !decide (a.record.entryId = "b")) false =
          .ok (report, after) ∧
      report.inserted = 1 ∧
      after.seriesCursor "one" = (table "one" disk.ledger).seriesCursor "one" := by
  have hcheck : (match ((hourlyAt 0 fun _ => false).patternCatchUp {}).run {} with
      | .ok _ disk => decide (disk.ledger.map (·.entryId) = ["a", "b"] ∧
          ((table "one" disk.ledger).filter fun a => a.record.entryId = "b").length = 1 ∧
          (∀ f ∈ disk.folder, ∀ a ∈ f.items.getD [],
            (a.id, a.start) ∈ disk.ledger.map PlayRecord.key) ∧
          ∀ a ∈ table "one" disk.ledger, a.record.entryId = "b" → a.channel = "one" ∧
            a.record.showId = none ∧ ∃ f ∈ disk.folder, ∃ item ∈ f.items.getD [],
              a.record.key = (item.id, item.start))
      | .error _ _ => false) = true := by decide +kernel
  cases hrun : ((hourlyAt 0 fun _ => false).patternCatchUp {}).run {} with
  | error e s =>
    rw [hrun] at hcheck
    cases hcheck
  | ok next disk =>
    rw [hrun] at hcheck
    obtain ⟨hrows, hlength, hprogrammes, hlost⟩ := of_decide_eq_true hcheck
    have hrolled : Rolled (plainOs Unit) sixHours ⟨0, true, {}, {}⟩ 0 0 (disk, next) :=
      .tick .start rfl rfl rfl (hourlyAt_lays _ _ _ _) (by decide) le_rfl le_rfl
        (by decide) hrun
    have hall : (table "one" disk.ledger).onChannel "one" = table "one" disk.ledger :=
      List.filter_eq_self.mpr fun a ha => by
        obtain ⟨r, -, rfl⟩ := List.mem_map.mp ha
        rfl
    obtain ⟨report, -, after, hrepair, hinserted, hcursor, -⟩ :=
      @rolled_repaired _ _ _ _ _ _ _ hrolled (fun _ => rfl) rfl rfl rfl _ "one" hall hprogrammes
        (fun _ => none) (fun a => a.record.entryId = "b") fun a ha hgone =>
          hlost a ha (of_decide_eq_true hgone)
    exact ⟨disk, report, after, hrows, hrepair, hinserted.trans hlength, hcursor⟩

end Run

end EtvStation
