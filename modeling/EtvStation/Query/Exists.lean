import EtvStation.Query.Atoms

/-! Membership clauses: an entry is asked for a row of its own in another table. -/
namespace EtvStation.Query

open Ingest (Entry TagNs)
open Lib
open Lib.Sql
open Lib.Sql.Value (ofBool)

section

variable {c : Shelves} {isMatch : String → String → Bool} {en : Entry}

/-- `EXISTS` over one table holds when a row meets the condition. -/
theorem eval_exists {E : Engine} {s : Scope} {α : Type} {t a : String} (xs : List α)
    (row : α → String → Value) (hrows : E.rows t = xs.map row) {e : Ast} {q : α → Bool}
    (he : ∀ x, ((e.eval E ((a, row x) :: s)).truth == some true) = q x) :
    (Ast.anyRow [(t, a)] [e]).eval E s = ofBool (xs.any q) := by
  have hcombos : E.combos [(t, a)] = xs.map fun x => [(a, row x)] := by
    simp only [Engine.combos, hrows, List.map_cons, List.map_nil]
    clear hrows he
    induction xs with
    | nil => rfl
    | cons x xs ih =>
      rw [List.map_cons, List.flatMap_cons, ih]
      rfl
  rw [Ast.eval, hcombos, List.any_map]
  congr 2
  funext x
  simp [evals, he]

theorem eval_exists_join {E : Engine} {s : Scope} {α β : Type} {t a t' a' : String}
    (xs : List α) (ys : List β) (row : α → String → Value) (row' : β → String → Value)
    (hrows : E.rows t = xs.map row) (hrows' : E.rows t' = ys.map row') {on e : Ast}
    {p q : α → β → Bool}
    (hon : ∀ x y, ((on.eval E ((a, row x) :: (a', row' y) :: s)).truth == some true) = p x y)
    (he : ∀ x y, ((e.eval E ((a, row x) :: (a', row' y) :: s)).truth == some true) = q x y) :
    (Ast.anyRow [(t, a), (t', a')] [on, e]).eval E s =
      ofBool (xs.any fun x => ys.any fun y => p x y && q x y) := by
  have hlast : E.combos [(t', a')] = ys.map fun y => [(a', row' y)] := by
    simp only [Engine.combos, hrows', List.map_cons, List.map_nil]
    clear hrows hrows' hon he
    induction ys with
    | nil => rfl
    | cons y ys ih =>
      rw [List.map_cons, List.flatMap_cons, ih]
      rfl
  rw [Ast.eval, Engine.combos, hrows, hlast, List.flatMap_map, List.any_flatMap]
  congr 2
  funext x
  rw [List.map_map, List.any_map]
  congr 1
  funext y
  simp [evals, hon, he]

/-- `a.entry_id = entries.entry_id`. -/
def sameEntryTokens (a : String) : List Token :=
  [Token.word a, Token.sym ".", Token.word "entry_id"] ++ Token.sym "=" ::
    [.word "entries", .sym ".", .word "entry_id"]

def sameEntry (a : String) : Ast := .bin .eq (.col a "entry_id") (.col "entries" "entry_id")

theorem clause_sameEntry {a : String} (ha : isName a = true) :
    Clause (sameEntryTokens a) (sameEntry a) :=
  (primary_col ha "entry_id").compare tailOf_eq (by omega)
    (primary_col isName_entries "entry_id")

theorem isName_aliases : isName "t" = true ∧ isName "s" = true ∧ isName "ci" = true ∧
    isName "c" = true ∧ isName "parent_dir" = true ∧ isName "lower" = true :=
  ⟨rfl, rfl, rfl, rfl, rfl, rfl⟩

/-- `a.col = ?`. -/
theorem clause_col_eq {a : String} (ha : isName a = true) (col : String) (v : Value) :
    Clause ([Token.word a, Token.sym ".", Token.word col] ++ Token.sym "=" :: [.bound v])
      (.bin .eq (.col a col) (.lit v)) :=
  (primary_col ha col).compare tailOf_eq (by omega) (primary_bound v)

/-- `a.col = x`, with `x` as one token. -/
def colEqTokens (a col : String) (x : Token) : List Token :=
  [.word a, .sym ".", .word col, .sym "=", x]

/-- `EXISTS` over one table, with the conditions on a row of the entry's own. -/
def rowTokens (t a : String) (conds : List Token) : List Token :=
  existsFrom t a ++ Token.word "WHERE" ::
    (sameEntryTokens a ++ Token.word "AND" :: (conds ++ [Token.sym ")"]))

/-- One more condition after those joined by `AND`. -/
theorem reads_and {ts us : List Token} {l r : Ast} (hl : Reads 0 3 ts l) (hr : Clause us r) :
    Reads 0 3 (ts ++ Token.word "AND" :: us) (.bin .and l r) :=
  hl.bin tailOf_and (by omega) (by omega) (hr.operand (by omega))

theorem contains_map_filter {α β : Type} [BEq β] [LawfulBEq β] (xs : List α) (p : α → Bool)
    (f : α → β) (v : β) :
    ((xs.filter p).map f).contains v = xs.any fun x => p x && f x == v := by
  induction xs with
  | nil => rfl
  | cons x xs ih =>
    cases hp : p x with
    | true =>
      rw [List.filter_cons_of_pos hp, List.map_cons, List.contains_cons, ih, List.any_cons, hp,
        Bool.true_and, BEq.comm]
    | false =>
      rw [List.filter_cons_of_neg (by simp [hp]), ih, List.any_cons, hp, Bool.false_and,
        Bool.false_or]

theorem contains_filterMap_filter {α β : Type} [BEq β] [LawfulBEq β] (xs : List α)
    (p : α → Bool) (f : α → Option β) (v : β) :
    ((xs.filter p).filterMap f).contains v = xs.any fun x => p x && f x == some v := by
  induction xs with
  | nil => rfl
  | cons x xs ih =>
    cases hp : p x with
    | false =>
      rw [List.filter_cons_of_neg (by simp [hp]), ih, List.any_cons, hp, Bool.false_and,
        Bool.false_or]
    | true =>
      rw [List.filter_cons_of_pos hp, List.any_cons, hp, Bool.true_and]
      cases hf : f x with
      | none =>
        rw [List.filterMap_cons_none hf, ih]
        rfl
      | some y =>
        rw [List.filterMap_cons_some hf, List.contains_cons, ih, BEq.comm]
        rfl

theorem asStr_beq (a b : TagNs) : (a.asStr == b.asStr) = decide (some b = some a) := by
  cases a <;> cases b <;> decide

set_option maxRecDepth 4000 in
theorem piece_tag_ns (ns : TagNs) (v : String) :
    Piece (c.engine isMatch) (scopeOf en)
      "EXISTS (SELECT 1 FROM tags t WHERE t.entry_id = entries.entry_id AND t.namespace = ? AND t.value = ?)"
      [.text ns.asStr, .text v] (ofBool ((tagValues c en (some ns)).contains v)) := by
  have hcond := reads_and (Clause.and (clause_sameEntry isName_aliases.1)
    (clause_col_eq isName_aliases.1 "namespace" (.text ns.asStr)))
    (clause_col_eq isName_aliases.1 "value" (.text v))
  refine ⟨rowTokens "tags" "t" (colEqTokens "t" "namespace" .param ++
    Token.word "AND" :: colEqTokens "t" "value" .param), _, _,
    lex_ofList rfl rfl, by decide, rfl, (hcond.operand (by omega)).exists "tags" "t", ?_⟩
  have hrow : ∀ t : Ingest.Tag, (((Ast.bin .and (.bin .and (sameEntry "t")
      (.bin .eq (.col "t" "namespace") (.lit (.text ns.asStr))))
      (.bin .eq (.col "t" "value") (.lit (.text v)))).eval (c.engine isMatch)
        (("t", Shelves.tagRow t) :: scopeOf en)).truth == some true) =
      ((t.entryId == en.entryId && t.ns.asStr == ns.asStr) && t.value == v) := by
    intro t
    simp [Ast.eval, sameEntry, scopeOf, Shelves.tagRow, Shelves.entryRow, List.lookup_cons]
  rw [eval_exists c.tags Shelves.tagRow rfl hrow,
    tagValues, contains_map_filter]
  simp only [asStr_beq, Option.isNone_some, Bool.false_or]
  rfl

set_option maxRecDepth 4000 in
theorem piece_tag_any (v : String) :
    Piece (c.engine isMatch) (scopeOf en)
      "EXISTS (SELECT 1 FROM tags t WHERE t.entry_id = entries.entry_id AND t.value = ?)"
      [.text v] (ofBool ((tagValues c en none).contains v)) := by
  have hcond := Clause.and (clause_sameEntry isName_aliases.1)
    (clause_col_eq isName_aliases.1 "value" (.text v))
  refine ⟨rowTokens "tags" "t" (colEqTokens "t" "value" .param), _, _,
    lex_ofList rfl rfl, by decide, rfl, (hcond.operand (by omega)).exists "tags" "t", ?_⟩
  have hrow : ∀ t : Ingest.Tag, (((Ast.bin .and (sameEntry "t")
      (.bin .eq (.col "t" "value") (.lit (.text v)))).eval (c.engine isMatch)
        (("t", Shelves.tagRow t) :: scopeOf en)).truth == some true) =
      (t.entryId == en.entryId && t.value == v) := by
    intro t
    simp [Ast.eval, sameEntry, scopeOf, Shelves.tagRow, Shelves.entryRow, List.lookup_cons]
  rw [eval_exists c.tags Shelves.tagRow rfl hrow,
    tagValues, contains_map_filter]
  simp only [Option.isNone_none, Bool.true_or, Bool.and_true]
  rfl

set_option maxRecDepth 4000 in
theorem piece_source (v : String) :
    Piece (c.engine isMatch) (scopeOf en) sourceExists [.text v]
      (ofBool (((sourcesOf c en).map (·.source.asStr)).contains v)) := by
  have hcond := Clause.and (clause_sameEntry isName_aliases.2.1)
    (clause_col_eq isName_aliases.2.1 "source" (.text v))
  refine ⟨rowTokens "entry_sources" "s" (colEqTokens "s" "source" .param), _, _,
    lex_ofList rfl rfl, by decide, rfl,
    (hcond.operand (by omega)).exists "entry_sources" "s", ?_⟩
  have hrow : ∀ r : (Ingest.Source × String) × Ingest.EntrySource, (((Ast.bin .and (sameEntry "s")
      (.bin .eq (.col "s" "source") (.lit (.text v)))).eval (c.engine isMatch)
        (("s", Shelves.sourceRow r.2) :: scopeOf en)).truth == some true) =
      (r.2.entryId == en.entryId && r.2.source.asStr == v) := by
    intro r
    simp [Ast.eval, sameEntry, scopeOf, Shelves.sourceRow, Shelves.entryRow, List.lookup_cons]
  rw [eval_exists c.sources.rows (fun r => Shelves.sourceRow r.2) rfl hrow, sourcesOf,
    contains_map_filter, List.any_map]
  rfl

set_option maxRecDepth 4000 in
theorem piece_fsDir (v : String) :
    Piece (c.engine isMatch) (scopeOf en) fsDirExists [.text v]
      (ofBool (((sourcesOf c en).filterMap fun r => parentDir r.playbackPath).contains v)) := by
  have hdir : Clause ((Token.word "parent_dir" :: Token.sym "(" ::
      ([Token.word "s", Token.sym ".", Token.word "playback_path"] ++ [Token.sym ")"])) ++
        Token.sym "=" :: [.bound (.text v)])
      (.bin .eq (.call "parent_dir" [.col "s" "playback_path"]) (.lit (.text v))) :=
    (((primary_col isName_aliases.2.1 "playback_path").operand 0).listed.call
      isName_aliases.2.2.2.2.1).compare tailOf_eq (by omega) (primary_bound _)
  have hcond := Clause.and (clause_sameEntry isName_aliases.2.1) hdir
  refine ⟨rowTokens "entry_sources" "s" [.word "parent_dir", .sym "(", .word "s", .sym ".",
    .word "playback_path", .sym ")", .sym "=", .param], _, _,
    lex_ofList rfl rfl, by decide, rfl,
    (hcond.operand (by omega)).exists "entry_sources" "s", ?_⟩
  have hrow : ∀ r : (Ingest.Source × String) × Ingest.EntrySource, (((Ast.bin .and (sameEntry "s")
      (.bin .eq (.call "parent_dir" [.col "s" "playback_path"]) (.lit (.text v)))).eval
        (c.engine isMatch) (("s", Shelves.sourceRow r.2) :: scopeOf en)).truth == some true) =
      (r.2.entryId == en.entryId && parentDir r.2.playbackPath == some v) := by
    intro r
    have hdir : (c.engine isMatch).call "parent_dir" [.text r.2.playbackPath] =
        ((parentDir r.2.playbackPath).map .text).getD .null := rfl
    cases hd : parentDir r.2.playbackPath with
    | none =>
      rw [hd] at hdir
      simp [Ast.eval, evals, sameEntry, scopeOf, Shelves.sourceRow, Shelves.entryRow, List.lookup_cons,
        hdir]
    | some d =>
      rw [hd] at hdir
      simp [Ast.eval, evals, sameEntry, scopeOf, Shelves.sourceRow, Shelves.entryRow, List.lookup_cons,
        hdir]
  rw [eval_exists c.sources.rows (fun r => Shelves.sourceRow r.2) rfl hrow, sourcesOf,
    contains_filterMap_filter, List.any_map]
  rfl

theorem primary_collection {us : List Token} {e : Ast} (hcl : Clause us e) :
    Primary (existsFrom "collection_items" "ci" ++ Token.word "JOIN" :: Token.word "collections" ::
      Token.word "c" :: Token.word "ON" ::
        (([Token.word "c", Token.sym ".", Token.word "collection_id"] ++ Token.sym "=" ::
          [Token.word "ci", Token.sym ".", Token.word "collection_id"]) ++ Token.word "WHERE" ::
          ((sameEntryTokens "ci" ++ Token.word "AND" :: us) ++ [Token.sym ")"])))
      (.anyRow [("collection_items", "ci"), ("collections", "c")]
        [.bin .eq (.col "c" "collection_id") (.col "ci" "collection_id"),
          .bin .and (sameEntry "ci") e]) :=
  (((primary_col isName_aliases.2.2.2.1 "collection_id").compare tailOf_eq (by omega)
    (primary_col isName_aliases.2.2.1 "collection_id")).operand (by omega)).exists_join
      "collection_items" "ci" "collections" "c"
      (((clause_sameEntry isName_aliases.2.2.1).and hcl).operand (by omega))

/-- The names of the entry's collections, asked by `q`. -/
theorem eval_collection {e : Ast} {q : String → Bool}
    (he : ∀ i r, (e.eval (c.engine isMatch) (("ci", Shelves.collectionItemRow i) ::
      ("c", Shelves.collectionRow r) :: scopeOf en)).truth = some (q r.2)) :
    (Ast.anyRow [("collection_items", "ci"), ("collections", "c")]
      [.bin .eq (.col "c" "collection_id") (.col "ci" "collection_id"),
        .bin .and (sameEntry "ci") e]).eval (c.engine isMatch) (scopeOf en) =
      ofBool ((collectionNames c en).any q) := by
  have hon : ∀ (i : Ingest.CollectionItem) (r : String × String),
      (((Ast.bin .eq (.col "c" "collection_id") (.col "ci" "collection_id")).eval
        (c.engine isMatch) (("ci", Shelves.collectionItemRow i) ::
          ("c", Shelves.collectionRow r) :: scopeOf en)).truth == some true) =
      (r.1 == i.collectionId) := by
    intro i r
    simp [Ast.eval, Shelves.collectionItemRow, Shelves.collectionRow, List.lookup_cons]
  have hcond : ∀ (i : Ingest.CollectionItem) (r : String × String),
      (((Ast.bin .and (sameEntry "ci") e).eval (c.engine isMatch)
        (("ci", Shelves.collectionItemRow i) :: ("c", Shelves.collectionRow r) ::
          scopeOf en)).truth == some true) =
      (i.entryId == en.entryId && q r.2) := by
    intro i r
    have hsame : ((sameEntry "ci").eval (c.engine isMatch)
        (("ci", Shelves.collectionItemRow i) :: ("c", Shelves.collectionRow r) ::
          scopeOf en)) = ofBool (i.entryId == en.entryId) := by
      simp [Ast.eval, sameEntry, Shelves.collectionItemRow, Shelves.entryRow, scopeOf, List.lookup_cons]
    rw [Ast.eval, hsame, Engine.apply, Value.truth_ofTruth, he i r, Value.truth_ofBool]
    cases i.entryId == en.entryId <;> cases q r.2 <;> rfl
  rw [eval_exists_join c.collectionItems c.collections.rows Shelves.collectionItemRow
    Shelves.collectionRow rfl rfl hon hcond]
  congr 1
  rw [collectionNames, Bool.eq_iff_iff, List.any_eq_true, List.any_eq_true]
  constructor
  · intro h
    obtain ⟨i, hi, hrows⟩ := h
    obtain ⟨r, hr, hq⟩ := List.any_eq_true.mp hrows
    simp only [Bool.and_eq_true, beq_iff_eq] at hq
    refine ⟨r.2, List.mem_filterMap.mpr ⟨i, ?_, ?_⟩, hq.2.2⟩
    · exact List.mem_filter.mpr ⟨hi, decide_eq_true hq.2.1⟩
    · rw [← hq.1]
      exact Table.mem_rows.mp hr
  · intro h
    obtain ⟨name, hname, hq⟩ := h
    obtain ⟨i, hi, hget⟩ := List.mem_filterMap.mp hname
    obtain ⟨hi, hid⟩ := List.mem_filter.mp hi
    refine ⟨i, hi, List.any_eq_true.mpr ⟨(i.collectionId, name), Table.mem_rows.mpr hget, ?_⟩⟩
    rw [beq_self_eq_true, Bool.true_and, hq, Bool.and_true, beq_iff_eq]
    exact of_decide_eq_true hid

/-- What stands before the last condition of a collection's clause. -/
def collectionTokens (us : List Token) : List Token :=
  existsFrom "collection_items" "ci" ++ Token.word "JOIN" :: Token.word "collections" ::
    Token.word "c" :: Token.word "ON" ::
        (([Token.word "c", Token.sym ".", Token.word "collection_id"] ++ Token.sym "=" ::
          [Token.word "ci", Token.sym ".", Token.word "collection_id"]) ++ Token.word "WHERE" ::
        ((sameEntryTokens "ci" ++ Token.word "AND" :: us) ++ [Token.sym ")"]))

set_option maxRecDepth 4000 in
theorem piece_collection (v : String) :
    Piece (c.engine isMatch) (scopeOf en)
      "EXISTS (SELECT 1 FROM collection_items ci JOIN collections c ON c.collection_id = ci.collection_id WHERE ci.entry_id = entries.entry_id AND c.name = ?)"
      [.text v] (ofBool ((collectionNames c en).contains v)) := by
  refine ⟨collectionTokens (colEqTokens "c" "name" .param), _, _,
    lex_ofList rfl rfl, by decide, rfl,
    primary_collection (clause_col_eq isName_aliases.2.2.2.1 "name" (.text v)), ?_⟩
  have he : ∀ i r, ((Ast.bin .eq (.col "c" "name") (.lit (.text v))).eval (c.engine isMatch)
      (("ci", Shelves.collectionItemRow i) :: ("c", Shelves.collectionRow r) ::
        scopeOf en)).truth = some (v == r.2) := by
    intro i r
    rw [BEq.comm]
    simp [Ast.eval, Shelves.collectionRow, List.lookup_cons]
  rw [eval_collection (q := fun name => v == name) he, List.contains_eq_any_beq]

set_option maxRecDepth 4000 in
theorem piece_collection_like (v : String) :
    Piece (c.engine isMatch) (scopeOf en)
      "EXISTS (SELECT 1 FROM collection_items ci JOIN collections c ON c.collection_id = ci.collection_id WHERE ci.entry_id = entries.entry_id AND c.name LIKE ? || '%' ESCAPE '\\')"
      [.text (likeEscape v)]
      (ofBool ((collectionNames c en).any fun name => Like.opens v.toList name.toList)) := by
  refine ⟨collectionTokens [.word "c", .sym ".", .word "name", .word "LIKE", .param, .sym "||",
    .str "%", .word "ESCAPE", .str "\\"], _, _,
    lex_ofList rfl rfl, by decide, rfl,
    primary_collection ((primary_col isName_aliases.2.2.2.1 "name").like "\\"
      (operand_opens (.text (likeEscape v)))), ?_⟩
  apply eval_collection
  intro i r
  simp [Ast.eval, Shelves.collectionRow, List.lookup_cons, likeValue_opens]

set_option maxRecDepth 4000 in
theorem piece_collection_regexp (v : String) :
    Piece (c.engine isMatch) (scopeOf en)
      "EXISTS (SELECT 1 FROM collection_items ci JOIN collections c ON c.collection_id = ci.collection_id WHERE ci.entry_id = entries.entry_id AND c.name REGEXP ?)"
      [.text v] (ofBool ((collectionNames c en).any fun name => isMatch v name)) := by
  refine ⟨collectionTokens [.word "c", .sym ".", .word "name", .word "REGEXP", .param], _, _,
    lex_ofList rfl rfl, by decide, rfl,
    primary_collection ((primary_col isName_aliases.2.2.2.1 "name").compare (t := .word "REGEXP")
      (p := 4) (o := .regexp) (by simp [tailOf]) le_rfl (primary_bound (.text v))), ?_⟩
  apply eval_collection
  intro i r
  exact Value.truth_ofBool _

end

end EtvStation.Query
