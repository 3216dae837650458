import EtvStation.Query.Pieces

/-! The clauses without clauses inside: comparisons, pattern matches and the `EXISTS` over an
entry's rows in another table. -/
namespace EtvStation.Query

open Ingest (Entry TagNs)
open Lib
open Lib.Sql
open Lib.Sql.Value (ofBool)

def scopeOf (en : Entry) : Scope := [("entries", Shelves.entryRow en)]

section

variable {c : Shelves} {isMatch : String → String → Bool} {en : Entry}

theorem entryRow_name (f : ScalarField) : Shelves.entryRow en f.name = (f.value en).sql := by
  have hne : f.name ≠ "entry_id" := by cases f <;> decide
  rw [Shelves.entryRow, if_neg hne, ScalarField.fromName_name]
  rfl

def columnTokens (f : ScalarField) : List Token := [.word "entries", .sym ".", .word f.name]

theorem lex_column (f : ScalarField) : lex ("entries." ++ f.name) = some (columnTokens f) := by
  cases f <;> exact lex_ofList_append rfl rfl

theorem column_known (f : ScalarField) : ∀ t ∈ columnTokens f, t ∈ vocabulary := by
  cases f <;> decide

theorem isName_entries : isName "entries" = true := rfl

theorem piece_column {E : Engine} {f : ScalarField} {i : ℤ} (hi : f.value en = .num (some i)) :
    Piece E (scopeOf en) ("entries." ++ f.name) [] (.int i) := by
  refine ⟨columnTokens f, columnTokens f, .col "entries" f.name, lex_column f, column_known f, rfl,
    primary_col isName_entries f.name, ?_⟩
  simp only [Ast.eval, scopeOf, List.lookup_cons, beq_self_eq_true, Option.map_some, Option.getD_some,
    entryRow_name, hi]
  rfl

def textColumnTokens (f : ScalarField) : List Token :=
  Token.word "COALESCE" :: Token.sym "(" ::
    (columnTokens f ++ Token.sym "," :: ([Token.str ""] ++ [Token.sym ")"]))

theorem lex_textColumn (f : ScalarField) : lex (textColumn f) = some (textColumnTokens f) := by
  cases f <;> exact lex_ofList_append_append rfl rfl

theorem textColumn_known (f : ScalarField) : ∀ t ∈ textColumnTokens f, t ∈ vocabulary := by
  cases f <;> decide

/-- A text column reads as the empty text where it is unset. -/
theorem piece_textColumn {f : ScalarField} {s : Option String} (hs : f.value en = .str s) :
    Piece (c.engine isMatch) (scopeOf en) (textColumn f) [] (.text (s.getD "")) := by
  have hlist : Listed (columnTokens f ++ Token.sym "," :: ([Token.str ""] ++ [Token.sym ")"]))
      [.col "entries" f.name, .lit (.text "")] :=
    ((primary_col isName_entries f.name).operand 0).listed_cons ((primary_str "").operand 0).listed
  refine ⟨textColumnTokens f, textColumnTokens f, _, lex_textColumn f, textColumn_known f, rfl,
    hlist.call rfl, ?_⟩
  simp only [Ast.eval, evals, scopeOf, List.lookup_cons, beq_self_eq_true, Option.map_some,
    Option.getD_some, entryRow_name, hs]
  cases s <;> rfl

theorem likeEscape_toList (s : String) :
    (likeEscape s).toList = Like.escape '\\' s.toList := by
  rw [likeEscape, String.toList_ofList]
  induction s.toList with
  | nil => rfl
  | cons x xs ih =>
    have hcons : ∀ (ch : Char) (by' ys : List Char) (y : Char),
        replace ch by' (y :: ys) = (if y = ch then by' else [y]) ++ replace ch by' ys :=
      fun ch by' ys y => List.flatMap_cons
    have happ : ∀ (ch : Char) (by' ys zs : List Char),
        replace ch by' (ys ++ zs) = replace ch by' ys ++ replace ch by' zs :=
      fun ch by' ys zs => List.flatMap_append
    rw [hcons, happ, happ, ih, show Like.escape '\\' (x :: xs) =
      (if x = '\\' ∨ x = '%' ∨ x = '_' then ['\\', x] else [x]) ++ Like.escape '\\' xs
      from List.flatMap_cons]
    congr 1
    by_cases h1 : x = '\\'
    · rw [h1]
      decide
    · by_cases h2 : x = '%'
      · rw [h2]
        decide
      · by_cases h3 : x = '_'
        · rw [h3]
          decide
        · simp [h1, h2, h3, replace]

theorem likeValue_occurs (t s : String) :
    likeValue (.text t) (.text ("%" ++ likeEscape s ++ "%")) (.text "\\") =
      ofBool (Like.occurs s.toList t.toList) := by
  have hp : ("%" ++ likeEscape s ++ "%").toList = '%' :: (Like.escape '\\' s.toList ++ ['%']) := by
    rw [String.toList_append, String.toList_append, likeEscape_toList]
    rfl
  rw [← Like.holds_occurs (by decide : '\\' ≠ '%'), ← hp]
  rfl

theorem likeValue_opens (t s : String) :
    likeValue (.text t) (.text (likeEscape s ++ "%")) (.text "\\") =
      ofBool (Like.opens s.toList t.toList) := by
  have hp : (likeEscape s ++ "%").toList = Like.escape '\\' s.toList ++ ['%'] := by
    rw [String.toList_append, likeEscape_toList]
    rfl
  rw [← Like.holds_opens (by decide : '\\' ≠ '%'), ← hp]
  rfl

/-- `'%' || ? || '%'`. -/
def occursTokens (v : Value) : List Token :=
  [.str "%", .sym "||", .bound v, .sym "||", .str "%"]

theorem operand_occurs (v : Value) : Operand 5 (occursTokens v)
    (.bin .cat (.bin .cat (.lit (.text "%")) (.lit v)) (.lit (.text "%"))) := by
  have hone := ((primary_str "%").reads 5 9).bin tailOf_cat (by omega) (by omega)
    ((primary_bound v).operand 9)
  exact (hone.bin tailOf_cat (by omega) (by omega) ((primary_str "%").operand 9)).operand (by omega)

/-- `? || '%'`. -/
def opensTokens (v : Value) : List Token := [.bound v, .sym "||", .str "%"]

theorem operand_opens (v : Value) :
    Operand 5 (opensTokens v) (.bin .cat (.lit v) (.lit (.text "%"))) :=
  (((primary_bound v).reads 5 9).bin tailOf_cat (by omega) (by omega)
    ((primary_str "%").operand 9)).operand (by omega)

theorem means_contains {f : ScalarField} {s : Option String} (hs : f.value en = .str s)
    (v : String) :
    Means (c.engine isMatch) (scopeOf en)
      ⟨textColumn f ++ " LIKE '%' || ? || '%' ESCAPE '\\'", [.text (likeEscape v)]⟩
      (Like.occurs v.toList (s.getD "").toList) := by
  have hcol : Piece (c.engine isMatch) (scopeOf en) (textColumn f) [] (.text (s.getD "")) :=
    piece_textColumn hs
  obtain ⟨ts, us, e, hlex, hvoc, hbind, hprim, heval⟩ := hcol
  have htail : lex "LIKE '%' || ? || '%' ESCAPE '\\'" = some (Token.word "LIKE" ::
      ([Token.str "%", Token.sym "||", .param, Token.sym "||", Token.str "%"] ++
        Token.word "ESCAPE" :: [Token.str "\\"])) :=
    lex_ofList rfl rfl
  have htext := lex_space hlex htail
  rw [String.append_assoc] at htext
  refine ⟨_, _, _, htext, ?_, bind_append hbind ?_,
    hprim.like "\\" (operand_occurs (.text (likeEscape v))), ?_⟩
  · exact List.forall_mem_append.mpr ⟨hvoc, by decide⟩
  · rfl
  · simp only [Ast.eval, heval, Engine.apply_cat, likeValue_occurs, Value.truth_ofBool]

theorem means_startsWith {f : ScalarField} {s : Option String} (hs : f.value en = .str s)
    (v : String) :
    Means (c.engine isMatch) (scopeOf en)
      ⟨textColumn f ++ " LIKE ? || '%' ESCAPE '\\'", [.text (likeEscape v)]⟩
      (Like.opens v.toList (s.getD "").toList) := by
  have hcol : Piece (c.engine isMatch) (scopeOf en) (textColumn f) [] (.text (s.getD "")) :=
    piece_textColumn hs
  obtain ⟨ts, us, e, hlex, hvoc, hbind, hprim, heval⟩ := hcol
  have htail : lex "LIKE ? || '%' ESCAPE '\\'" = some (Token.word "LIKE" ::
      ([.param, Token.sym "||", Token.str "%"] ++ Token.word "ESCAPE" :: [Token.str "\\"])) :=
    lex_ofList rfl rfl
  have htext := lex_space hlex htail
  rw [String.append_assoc] at htext
  refine ⟨_, _, _, htext, ?_, bind_append hbind ?_,
    hprim.like "\\" (operand_opens (.text (likeEscape v))), ?_⟩
  · exact List.forall_mem_append.mpr ⟨hvoc, by decide⟩
  · rfl
  · simp only [Ast.eval, heval, Engine.apply_cat, likeValue_opens, Value.truth_ofBool]

theorem means_matches {f : ScalarField} {s : Option String} (hs : f.value en = .str s)
    (v : String) :
    Means (c.engine isMatch) (scopeOf en) ⟨textColumn f ++ " REGEXP ?", [.text v]⟩
      (isMatch v (s.getD "")) := by
  have hcol : Piece (c.engine isMatch) (scopeOf en) (textColumn f) [] (.text (s.getD "")) :=
    piece_textColumn hs
  obtain ⟨ts, us, e, hlex, hvoc, hbind, hprim, heval⟩ := hcol
  have htext := lex_space hlex
    (show lex "REGEXP ?" = some [.word "REGEXP", .param] from lex_ofList rfl rfl)
  rw [String.append_assoc] at htext
  refine ⟨_, _, _, htext, ?_, bind_append hbind ?_,
    hprim.compare (t := .word "REGEXP") (p := 4) (o := .regexp) (by simp [tailOf]) le_rfl
      (primary_bound (.text v)), ?_⟩
  · exact List.forall_mem_append.mpr ⟨hvoc, by decide⟩
  · rfl
  · simp only [Ast.eval, heval]
    exact Value.truth_ofBool _

end

end EtvStation.Query
