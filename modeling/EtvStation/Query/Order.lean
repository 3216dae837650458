import Mathlib.Data.String.Basic
import EtvStation.Lib.Outcome
import EtvStation.Lib.Sql.Order
import EtvStation.Pattern.Roll
import EtvStation.Query.Atoms

/-! Ordering the ids a pool resolves to. A list of more ids than a statement should bind is ordered
by way of the whole table, and comes out the same. -/
namespace EtvStation.Query

open Ingest (Entry)
open Lib.Sql

inductive Dir
  | asc
  | desc
  deriving DecidableEq, Repr

structure FieldSort where
  field : String
  dir : Dir
  deriving DecidableEq, Repr

inductive Order
  /-- As authored. -/
  | manual
  | random
  | fields (terms : List FieldSort)
  deriving DecidableEq, Repr

def MAX_SQL_VARIABLES : ℕ := 900

/-- The column behind an order field; what has several values has no single one to sort by. -/
def sortColumn (field : String) : Option String :=
  (ScalarField.fromName field).map ScalarField.name

def Dir.sql : Dir → String
  | asc => "ASC"
  | desc => "DESC"

def FieldSort.sql (f : FieldSort) : Except String String :=
  match sortColumn f.field with
  | none => .error ("cannot order by item." ++ f.field ++ " (not a sortable scalar field)")
  | some col => .ok ("entries." ++ col ++ " IS NULL, entries." ++ col ++ " " ++ f.dir.sql)

def orderByClause (fields : List FieldSort) : Except String String := do
  let parts ← fields.mapM FieldSort.sql
  .ok (", ".intercalate (parts ++ ["entries.entry_id ASC"]))

/-- The seed is the state SplitMix64 starts in. -/
def shuffleFrom : ℕ → UInt64 → Array String → Array String
  | 0, _, ids => ids
  | i + 1, state, ids =>
    shuffleFrom i (state + 0x9E3779B97F4A7C15)
      (ids.swapIfInBounds (i + 1) ((splitmix64 state).toNat % (i + 2)))

/-- Fisher–Yates, from the last place down. -/
def seededShuffle (ids : List String) (seed : UInt64) : List String :=
  (shuffleFrom (ids.length - 1) seed ids.toArray).toList

/-- A row of `entries`, whose primary key is what the table is keyed by. -/
def orderCell (r : String × Entry) (col : String) : Value :=
  if col = "entry_id" then .text r.1 else Shelves.entryRow r.2 col

/-- The rows of `SELECT entry_id FROM entries`, with `WHERE entry_id IN (…)` where a list is given. -/
def selected (c : Ingest.Catalog) : Option (List String) → List (String × Entry)
  | none => c.entries.rows
  | some ids =>
    c.entries.rows.filter fun r =>
      (memberOf (orderCell r "entry_id") (ids.map .text)).truth = some true

section

variable (S : Sorter (String × Entry)) (c : Ingest.Catalog)

def orderedIds (ids : Option (List String)) (clause : String) : Except String (List String) :=
  match readOrder "entries" clause with
  | none => .error "syntax error"
  | some keys => .ok ((S.sort orderCell keys (selected c ids)).map Prod.fst)

def orderWholeTable (ids : List String) (terms : List FieldSort) : Except String (List String) := do
  let clause ← orderByClause terms
  let ordered ← orderedIds S c none clause
  .ok (ordered.filter fun id => ids.contains id)

def orderInList (ids : List String) (terms : List FieldSort) : Except String (List String) := do
  let clause ← orderByClause terms
  orderedIds S c (some ids) clause

def resolveOrder (ids : List String) (order : Order) (seed : UInt64) :
    Except String (List String) :=
  if ids = [] then .ok []
  else
    match order with
    | .manual => .ok ids
    -- sorted first, so that the shuffle depends on the set and the seed alone
    | .random => .ok (seededShuffle (ids.mergeSort fun a b => a ≤ b) seed)
    | .fields terms =>
      if ids.length > MAX_SQL_VARIABLES then orderWholeTable S c ids terms
      else orderInList S c ids terms

end

theorem shuffleFrom_perm (i : ℕ) (state : UInt64) (ids : Array String) :
    (shuffleFrom i state ids).toList.Perm ids.toList := by
  induction i generalizing state ids with
  | zero => exact List.Perm.refl _
  | succ i ih =>
    apply (ih _ _).trans
    rw [Array.swapIfInBounds]
    split_ifs with hi hj
    · exact (Array.swap_perm hi hj).toList
    · exact List.Perm.refl _
    · exact List.Perm.refl _

/-- A shuffle loses and doubles nothing. -/
theorem resolveOrder_random_perm {S : Sorter (String × Entry)} {c : Ingest.Catalog}
    {ids out : List String} {seed : UInt64} (h : resolveOrder S c ids .random seed = .ok out) :
    out.Perm ids := by
  rw [resolveOrder] at h
  split_ifs at h with hids
  · rw [hids, ← Except.ok.inj h]
  · rw [← Except.ok.inj h]
    apply (shuffleFrom_perm _ _ _).trans
    exact List.mergeSort_perm ids _

/-! ## The clause -/

def Dir.direction : Dir → Direction
  | asc => .asc
  | desc => .desc

def FieldSort.keys (f : FieldSort) : List SortKey :=
  [.isNull f.field, .column f.field f.dir.direction]

def keysOf (terms : List FieldSort) : List SortKey :=
  terms.flatMap FieldSort.keys ++ [.column "entry_id" .asc]

def FieldSort.IsSortable (f : FieldSort) : Prop := (ScalarField.fromName f.field).isSome

instance (f : FieldSort) : Decidable f.IsSortable := inferInstanceAs (Decidable (_ = _))

theorem readOrder_isNull (f : ScalarField) :
    readOrder "entries" ("entries." ++ f.name ++ " IS NULL") = some [.isNull f.name] := by
  have his : lex "IS" = some [.word "IS"] := lex_ofList rfl rfl
  have hnull : lex "NULL" = some [.word "NULL"] := lex_ofList rfl rfl
  have hlex := lex_space (lex_space (lex_column f) his) hnull
  have htext : "entries." ++ f.name ++ " IS NULL" =
      "entries." ++ f.name ++ " " ++ "IS" ++ " " ++ "NULL" := by
    simp only [String.append_assoc]
    rfl
  rw [htext]
  apply readOrder_key hlex
  · simp [columnTokens]
  · rfl

theorem readOrder_column (f : ScalarField) (dir : Dir) :
    readOrder "entries" ("entries." ++ f.name ++ " " ++ dir.sql) =
      some [.column f.name dir.direction] := by
  have hdir : lex dir.sql = some [.word dir.sql] := by
    cases dir <;> exact lex_ofList rfl rfl
  apply readOrder_key (lex_space (lex_column f) hdir)
  · simp [columnTokens]
  · cases dir <;> rfl

theorem readOrder_entryId :
    readOrder "entries" "entries.entry_id ASC" = some [.column "entry_id" .asc] := by
  have hlex : lex "entries.entry_id ASC" =
      some [.word "entries", .sym ".", .word "entry_id", .word "ASC"] := lex_ofList rfl rfl
  apply readOrder_key hlex
  · decide
  · rfl

theorem FieldSort.sql_eq_ok {f : FieldSort} {part : String} (h : f.sql = .ok part) :
    f.IsSortable ∧ readOrder "entries" part = some f.keys := by
  cases hf : ScalarField.fromName f.field with
  | none => simp [FieldSort.sql, sortColumn, hf] at h
  | some s =>
    have hname := ScalarField.name_of_fromName hf
    simp only [FieldSort.sql, sortColumn, hf, Option.map_some, Except.ok.injEq] at h
    refine ⟨by rw [IsSortable, hf]; rfl, ?_⟩
    have htext : part = "entries." ++ s.name ++ " IS NULL" ++ ", " ++
        ("entries." ++ s.name ++ " " ++ f.dir.sql) := by
      rw [← h]
      simp only [String.append_assoc]
      rfl
    rw [htext, readOrder_comma (readOrder_isNull s) (readOrder_column s f.dir), hname]
    rfl

theorem FieldSort.sql_of_isSortable {f : FieldSort} (h : f.IsSortable) :
    ∃ part, f.sql = .ok part := by
  obtain ⟨s, hs⟩ := Option.isSome_iff_exists.mp h
  simp [FieldSort.sql, sortColumn, hs]

/-- The clause reads as the terms say, each with its nulls last, and `entry_id` after them. -/
theorem orderByClause_eq_ok {terms : List FieldSort} {clause : String}
    (h : orderByClause terms = .ok clause) :
    (∀ t ∈ terms, t.IsSortable) ∧ readOrder "entries" clause = some (keysOf terms) := by
  induction terms generalizing clause with
  | nil =>
    obtain rfl := Except.ok.inj h
    exact ⟨by simp, readOrder_entryId⟩
  | cons t terms ih =>
    obtain ⟨parts, hparts, h⟩ := Lib.bind_eq_ok.mp h
    rw [List.mapM_cons] at hparts
    obtain ⟨part, hpart, hparts⟩ := Lib.bind_eq_ok.mp hparts
    obtain ⟨rest, hrest, hparts⟩ := Lib.bind_eq_ok.mp hparts
    obtain rfl := Except.ok.inj hparts
    obtain rfl := Except.ok.inj h
    obtain ⟨hsortable, hread⟩ := FieldSort.sql_eq_ok hpart
    have htail : orderByClause terms =
        .ok (", ".intercalate (rest ++ ["entries.entry_id ASC"])) := by
      rw [orderByClause, hrest]
      rfl
    obtain ⟨hall, hreadTail⟩ := ih htail
    refine ⟨List.forall_mem_cons.mpr ⟨hsortable, hall⟩, ?_⟩
    rw [List.cons_append, String.intercalate_cons_of_ne_nil (by simp),
      readOrder_comma hread hreadTail, keysOf, keysOf, List.flatMap_cons, List.append_assoc]

theorem orderByClause_isOk {terms : List FieldSort} :
    (∃ clause, orderByClause terms = .ok clause) ↔ ∀ t ∈ terms, t.IsSortable := by
  refine ⟨fun h => (orderByClause_eq_ok h.choose_spec).1, fun h => ?_⟩
  have hparts : ∃ parts, terms.mapM FieldSort.sql = .ok parts := by
    induction terms with
    | nil => exact ⟨[], rfl⟩
    | cons t terms ih =>
      obtain ⟨ht, hterms⟩ := List.forall_mem_cons.mp h
      obtain ⟨part, hpart⟩ := FieldSort.sql_of_isSortable ht
      obtain ⟨parts, hparts⟩ := ih hterms
      exact ⟨part :: parts, by rw [List.mapM_cons, hpart, hparts]; rfl⟩
  obtain ⟨parts, hparts⟩ := hparts
  exact ⟨_, by rw [orderByClause, hparts]; rfl⟩

/-! ## Before and after -/

/-- By the direction where both are there, and what is not there last. -/
def Dir.Precedes {α : Type} [LT α] (dir : Dir) : Option α → Option α → Prop
  | some a, some b =>
    match dir with
    | asc => a < b
    | desc => b < a
  | some _, none => True
  | none, _ => False

def ScalarValue.Precedes (dir : Dir) : ScalarValue → ScalarValue → Prop
  | .str a, .str b => dir.Precedes a b
  | .num a, .num b => dir.Precedes a b
  | _, _ => False

/-- What the terms say of two entries: the first term on which they differ decides, and where they
differ on none, the lesser id. -/
def Before : List FieldSort → String × Entry → String × Entry → Prop
  | [], a, b => a.1 < b.1
  | t :: ts, a, b =>
    ∃ f, ScalarField.fromName t.field = some f ∧
      ((f.value a.2).Precedes t.dir (f.value b.2) ∨ f.value a.2 = f.value b.2 ∧ Before ts a b)

theorem orderCell_name (f : ScalarField) (r : String × Entry) :
    orderCell r f.name = (f.value r.2).sql := by
  have hne : f.name ≠ "entry_id" := by cases f <;> decide
  rw [orderCell, if_neg hne, entryRow_name]

/-- A column's values are of one kind. -/
theorem ScalarField.value_kind (f : ScalarField) (e e' : Entry) :
    (∃ s s', f.value e = .str s ∧ f.value e' = .str s') ∨
      ∃ i i', f.value e = .num i ∧ f.value e' = .num i' := by
  cases f <;> simp [value]

/-- Values of one kind, by what the clause finds of their cells. -/
theorem Dir.precedes_of_cell {α : Type} [LT α] {dir : Dir} {cell : α → Value}
    (hcell : ∀ a, cell a ≠ .null)
    (hlt : ∀ a a', (cell a).sortCompare (cell a') = .lt → a < a') {x y : Option α}
    (h : ((x.map cell).getD .null ≠ .null ∧ (y.map cell).getD .null = .null) ∨
      ((x.map cell).getD .null ≠ .null ∧ (y.map cell).getD .null ≠ .null ∧
        dir.direction.compare ((x.map cell).getD .null) ((y.map cell).getD .null) = .lt)) :
    dir.Precedes x y := by
  cases x with
  | none =>
    obtain ⟨hx, -⟩ | ⟨hx, -⟩ := h
    · exact absurd rfl hx
    · exact absurd rfl hx
  | some a =>
    cases y with
    | none => trivial
    | some a' =>
      obtain ⟨-, hnull⟩ | ⟨-, -, hcmp⟩ := h
      · exact absurd hnull (hcell a')
      · cases dir with
        | asc => exact hlt a a' hcmp
        | desc => exact hlt a' a hcmp

/-- The values of one column, by what the clause finds of them. -/
theorem precedes_of_sql {x y : ScalarValue} {dir : Dir}
    (hkind : (∃ s s', x = .str s ∧ y = .str s') ∨ ∃ i i', x = .num i ∧ y = .num i')
    (h : (x.sql ≠ .null ∧ y.sql = .null) ∨
      (x.sql ≠ .null ∧ y.sql ≠ .null ∧ dir.direction.compare x.sql y.sql = .lt)) :
    x.Precedes dir y := by
  obtain ⟨s, s', rfl, rfl⟩ | ⟨i, i', rfl, rfl⟩ := hkind
  · have htext : ∀ a : String, Value.text a ≠ .null := by simp
    have hcmp : ∀ a a' : String, (Value.text a).sortCompare (.text a') = .lt → a < a' :=
      fun a a' => compare_lt_iff_lt.mp
    exact Dir.precedes_of_cell htext hcmp h
  · have hint : ∀ a : ℤ, Value.int a ≠ .null := by simp
    have hcmp : ∀ a a' : ℤ, (Value.int a).sortCompare (.int a') = .lt → a < a' :=
      fun a a' => compare_lt_iff_lt.mp
    exact Dir.precedes_of_cell hint hcmp h

theorem eq_of_sql {x y : ScalarValue}
    (hkind : (∃ s s', x = .str s ∧ y = .str s') ∨ ∃ i i', x = .num i ∧ y = .num i')
    (h : x.sql = y.sql) : x = y := by
  obtain ⟨s, s', rfl, rfl⟩ | ⟨i, i', rfl, rfl⟩ := hkind
  · cases s <;> cases s' <;> cases h <;> rfl
  · cases i <;> cases i' <;> cases h <;> rfl

theorem compare_keys {f : ScalarField} {dir : Dir} {ks : List SortKey} {a b : String × Entry}
    (h : (compareRows orderCell
      (.isNull f.name :: .column f.name dir.direction :: ks) a b).isLE) :
    (f.value a.2).Precedes dir (f.value b.2) ∨
      f.value a.2 = f.value b.2 ∧ (compareRows orderCell ks a b).isLE := by
  have hkind := f.value_kind a.2 b.2
  have hcases := isLE_nullsLast orderCell h
  rw [orderCell_name, orderCell_name] at hcases
  obtain hnull | hlt | ⟨heq, hrest⟩ := hcases
  · exact Or.inl (precedes_of_sql hkind (Or.inl hnull))
  · exact Or.inl (precedes_of_sql hkind (Or.inr hlt))
  · exact Or.inr ⟨eq_of_sql hkind heq, hrest⟩

/-- Entries in the order of the clause are in the order of the terms. -/
theorem before_of_isLE {terms : List FieldSort} (hsort : ∀ t ∈ terms, t.IsSortable)
    {a b : String × Entry} (hne : a.1 ≠ b.1)
    (h : (compareRows orderCell (keysOf terms) a b).isLE) : Before terms a b := by
  induction terms with
  | nil =>
    have hle : (compare a.1 b.1).isLE := by
      have hthen : ((compare a.1 b.1).then .eq).isLE := h
      rwa [Ordering.then_eq] at hthen
    have hnot : ¬ b.1 < a.1 := by
      intro hlt
      rw [compare_gt_iff_gt.mpr hlt] at hle
      cases hle
    exact lt_of_le_of_ne (not_lt.mp hnot) hne
  | cons t terms ih =>
    obtain ⟨ht, hterms⟩ := List.forall_mem_cons.mp hsort
    obtain ⟨f, hf⟩ := Option.isSome_iff_exists.mp ht
    have hkeys : keysOf (t :: terms) =
        .isNull f.name :: .column f.name t.dir.direction :: keysOf terms := by
      rw [ScalarField.name_of_fromName hf]
      rfl
    rw [hkeys] at h
    refine ⟨f, hf, ?_⟩
    obtain hfirst | ⟨heq, hrest⟩ := compare_keys h
    · exact Or.inl hfirst
    · exact Or.inr ⟨heq, ih hterms hrest⟩

/-! ## The answer -/

section

variable {S : Sorter (String × Entry)} {c : Ingest.Catalog} {terms : List FieldSort} {clause : String}

/-- The id is among the keys, so no two entries tie. -/
theorem eq_of_compareRows {a b : String × Entry} (ha : a ∈ c.entries.rows)
    (hb : b ∈ c.entries.rows) (h : compareRows orderCell (keysOf terms) a b = .eq) : a = b := by
  have hkey : SortKey.column "entry_id" .asc ∈ keysOf terms := by simp [keysOf]
  have hid : a.1 = b.1 := Value.text.inj (cell_eq_of_compareRows orderCell h hkey)
  exact List.inj_on_of_nodup_map c.entries.keyed ha hb hid

/-- To sort and then choose is to choose and then sort. -/
theorem sort_filter (p : String → Bool) :
    (S.sort orderCell (keysOf terms) c.entries.rows).filter (fun r => p r.1) =
      S.sort orderCell (keysOf terms) (c.entries.rows.filter fun r => p r.1) := by
  have hwhole := S.ordered orderCell (keysOf terms) c.entries.rows
  have hchosen := S.ordered orderCell (keysOf terms) (c.entries.rows.filter fun r => p r.1)
  apply (hwhole.filter fun r => p r.1).unique _ hchosen
  intro a ha b hb
  exact eq_of_compareRows (List.mem_of_mem_filter ha) (List.mem_of_mem_filter hb)

theorem selected_some (ids : List String) :
    selected c (some ids) = c.entries.rows.filter fun r => ids.contains r.1 := by
  rw [selected]
  apply List.filter_congr
  intro r _
  have hcell : orderCell r "entry_id" = .text r.1 := rfl
  rw [hcell, memberOf_text, Value.truth_ofBool, ← List.contains_eq_any_beq]
  simp

def wholeOrder (S : Sorter (String × Entry)) (c : Ingest.Catalog) (terms : List FieldSort) :
    List String :=
  (S.sort orderCell (keysOf terms) c.entries.rows).map Prod.fst

theorem orderWholeTable_eq (h : orderByClause terms = .ok clause) (ids : List String) :
    orderWholeTable S c ids terms =
      .ok ((wholeOrder S c terms).filter fun id => ids.contains id) := by
  rw [orderWholeTable, h, Lib.ok_bind, orderedIds, (orderByClause_eq_ok h).2]
  rfl

theorem orderInList_eq (h : orderByClause terms = .ok clause) (ids : List String) :
    orderInList S c ids terms =
      .ok ((wholeOrder S c terms).filter fun id => ids.contains id) := by
  rw [orderInList, h, Lib.ok_bind, orderedIds, (orderByClause_eq_ok h).2]
  simp only [selected_some, wholeOrder, List.filter_map, Function.comp_def]
  rw [sort_filter fun id => ids.contains id]

theorem orderWholeTable_eq_orderInList (ids : List String) :
    orderWholeTable S c ids terms = orderInList S c ids terms := by
  cases h : orderByClause terms with
  | error e => rw [orderWholeTable, orderInList, h]; rfl
  | ok clause => rw [orderWholeTable_eq h, orderInList_eq h]

/-- Whichever way is taken. -/
theorem resolveOrder_eq_ok {ids out : List String} {seed : UInt64} (hids : ids ≠ []) :
    resolveOrder S c ids (.fields terms) seed = .ok out ↔
      (∀ t ∈ terms, t.IsSortable) ∧
        out = (wholeOrder S c terms).filter fun id => ids.contains id := by
  have hways : resolveOrder S c ids (.fields terms) seed = orderInList S c ids terms := by
    rw [resolveOrder, if_neg hids]
    simp only [orderWholeTable_eq_orderInList, ite_self]
  rw [hways]
  constructor
  · intro h
    obtain ⟨clause, hclause, -⟩ := Lib.bind_eq_ok.mp h
    rw [orderInList_eq hclause] at h
    exact ⟨(orderByClause_eq_ok hclause).1, (Except.ok.inj h).symm⟩
  · rintro ⟨hsort, rfl⟩
    obtain ⟨clause, hclause⟩ := orderByClause_isOk.mpr hsort
    exact orderInList_eq hclause ids

theorem wholeOrder_nodup : (wholeOrder S c terms).Nodup := by
  have hperm := (S.ordered orderCell (keysOf terms) c.entries.rows).perm.map Prod.fst
  exact hperm.nodup_iff.mpr c.entries.keyed

theorem mem_wholeOrder {id : String} :
    id ∈ wholeOrder S c terms ↔ (c.entries.get id).isSome := by
  have hperm := (S.ordered orderCell (keysOf terms) c.entries.rows).perm.map Prod.fst
  rw [wholeOrder, hperm.mem_iff, Option.isSome_iff_ne_none, Ne, Lib.Table.get_eq_none, not_not]

theorem wholeOrder_before (hsort : ∀ t ∈ terms, t.IsSortable) :
    (wholeOrder S c terms).Pairwise fun i j => ∀ e e', c.entries.get i = some e →
      c.entries.get j = some e' → Before terms (i, e) (j, e') := by
  have hordered := S.ordered orderCell (keysOf terms) c.entries.rows
  have hnodup : (wholeOrder S c terms).Nodup := wholeOrder_nodup
  rw [wholeOrder, List.pairwise_map]
  rw [wholeOrder, List.Nodup, List.pairwise_map] at hnodup
  apply (hordered.sorted.and hnodup).imp_of_mem
  rintro a b ha hb ⟨hle, hne⟩ e e' he he'
  have hget : ∀ r ∈ S.sort orderCell (keysOf terms) c.entries.rows,
      c.entries.get r.1 = some r.2 := fun r hr =>
    Lib.Table.mem_rows.mp (hordered.perm.mem_iff.mp hr)
  rw [hget a ha, Option.some.injEq] at he
  rw [hget b hb, Option.some.injEq] at he'
  rw [← he, ← he']
  exact before_of_isLE hsort hne hle

end

/-- Ordering by fields, the list of ids however long: the two ways agree; the answer is each entry
named once, in the order of the terms; and fewer ids have the same answer with the others left out. -/
theorem resolveOrder_fields (S : Sorter (String × Entry)) (c : Ingest.Catalog) (ids : List String)
    (terms : List FieldSort) (seed : UInt64) :
    orderWholeTable S c ids terms = orderInList S c ids terms ∧
    ((∃ out, resolveOrder S c ids (.fields terms) seed = .ok out) ↔
      ids = [] ∨ ∀ t ∈ terms, t.IsSortable) ∧
    ∀ out, resolveOrder S c ids (.fields terms) seed = .ok out →
      out.Nodup ∧
      (∀ id, id ∈ out ↔ id ∈ ids ∧ (c.entries.get id).isSome) ∧
      (out.Pairwise fun i j => ∀ e e', c.entries.get i = some e → c.entries.get j = some e' →
        Before terms (i, e) (j, e')) ∧
      ∀ ids', ids' ⊆ ids → resolveOrder S c ids' (.fields terms) seed =
        .ok (out.filter fun id => ids'.contains id) := by
  refine ⟨orderWholeTable_eq_orderInList ids, ?_, ?_⟩
  · by_cases hids : ids = []
    · exact iff_of_true ⟨[], by rw [resolveOrder, if_pos hids]⟩ (Or.inl hids)
    · rw [or_iff_right hids]
      constructor
      · rintro ⟨out, hout⟩
        exact ((resolveOrder_eq_ok hids).mp hout).1
      · intro hsort
        exact ⟨_, (resolveOrder_eq_ok hids).mpr ⟨hsort, rfl⟩⟩
  · intro out hout
    by_cases hids : ids = []
    · obtain rfl : out = [] := by
        rw [resolveOrder, if_pos hids] at hout
        exact (Except.ok.inj hout).symm
      refine ⟨List.nodup_nil, by simp [hids], List.Pairwise.nil, ?_⟩
      intro ids' hsub
      rw [hids, List.subset_nil] at hsub
      rw [resolveOrder, if_pos hsub, List.filter_nil]
    · obtain ⟨hsort, rfl⟩ := (resolveOrder_eq_ok hids).mp hout
      refine ⟨wholeOrder_nodup.filter _, ?_, (wholeOrder_before hsort).filter _, ?_⟩
      · intro id
        rw [List.mem_filter, mem_wholeOrder, List.contains_iff_mem, and_comm]
      · intro ids' hsub
        rw [List.filter_filter]
        by_cases hids' : ids' = []
        · rw [resolveOrder, if_pos hids', hids']
          simp
        · rw [resolveOrder_eq_ok hids']
          refine ⟨hsort, List.filter_congr ?_⟩
          intro id _
          rw [Bool.eq_iff_iff, Bool.and_eq_true, List.contains_iff_mem, List.contains_iff_mem]
          exact ⟨fun h => h.1, fun h => ⟨h, hsub h⟩⟩

def films : Ingest.Catalog where
  entries :=
    { rows :=
        [("heat", { entryId := "heat", kind := "movie", title := "Heat", primarySource := .plex }),
         ("ran", { entryId := "ran", kind := "movie", title := "Ran", year := some 1985,
                   primarySource := .plex })]
      keyed := by decide }

theorem films_by_year :
    ∃ out, resolveOrder (Sorter.merge _) films ["heat", "ghost", "ran", "heat"]
        (.fields [⟨"year", .desc⟩]) 0 = .ok out ∧
      out.Nodup ∧ "heat" ∈ out ∧ "ghost" ∉ out := by
  obtain ⟨-, hok, hall⟩ := resolveOrder_fields (Sorter.merge _) films
    ["heat", "ghost", "ran", "heat"] [⟨"year", .desc⟩] 0
  obtain ⟨out, hout⟩ := hok.mpr (Or.inr (by decide))
  obtain ⟨hnodup, hmem, -⟩ := hall out hout
  refine ⟨out, hout, hnodup, ?_, ?_⟩
  · exact (hmem "heat").mpr ⟨by decide, rfl⟩
  · intro h
    exact absurd ((hmem "ghost").mp h).2 (by decide)

end EtvStation.Query
