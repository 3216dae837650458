import EtvStation.Query.Exists

/-! Clauses over a list of literals: `in` and the sum of a keyword score. -/
namespace EtvStation.Query

open Ingest (Entry TagNs)
open Lib
open Lib.Sql
open Lib.Sql.Value (ofBool)

section

variable {E : Engine} {s : Scope}

def markTokens {α : Type} : List α → List Token
  | [] => []
  | [_] => [.param]
  | _ :: vs => .param :: Token.sym "," :: markTokens vs

def boundTokens : List Value → List Token
  | [] => []
  | [v] => [.bound v]
  | v :: vs => .bound v :: Token.sym "," :: boundTokens vs

theorem lex_marks {α : Type} (vs : List α) :
    lex (String.intercalate ", " (vs.map fun _ => "?")) = some (markTokens vs) := by
  have hmark : lex "?" = some [.param] := lex_ofList rfl rfl
  induction vs with
  | nil => rfl
  | cons v vs ih =>
    cases vs with
    | nil => exact hmark
    | cons w ws =>
      rw [List.map_cons, List.map_cons, String.intercalate_cons_cons]
      exact lex_comma hmark ih

theorem marks_known {α : Type} (vs : List α) : ∀ t ∈ markTokens vs, t ∈ vocabulary := by
  induction vs with
  | nil => simp [markTokens]
  | cons v vs ih =>
    cases vs with
    | nil => exact fun t ht => by rw [List.mem_singleton.mp ht]; decide
    | cons w ws =>
      exact List.forall_mem_cons.mpr ⟨by decide, List.forall_mem_cons.mpr ⟨by decide, ih⟩⟩

theorem bind_marks (vs : List Value) : bind (markTokens vs) vs = some (boundTokens vs) := by
  induction vs with
  | nil => rfl
  | cons v vs ih =>
    cases vs with
    | nil => rfl
    | cons w ws =>
      rw [markTokens, bind_param, bind_cons (by simp), ih]
      · rfl
      · simp

theorem listed_bound {vs : List Value} (hvs : vs ≠ []) :
    Listed (boundTokens vs ++ [Token.sym ")"]) (vs.map .lit) := by
  induction vs with
  | nil => exact absurd rfl hvs
  | cons v vs ih =>
    cases vs with
    | nil => exact ((primary_bound v).operand 0).listed
    | cons w ws => exact ((primary_bound v).operand 0).listed_cons (ih (by simp))

theorem evals_lits (vs : List Value) : evals E (vs.map .lit) s = vs := by
  induction vs with
  | nil => rfl
  | cons v vs ih => rw [List.map_cons, evals, ih, Ast.eval]

/-- `<operand> IN (?, …)`. -/
theorem Piece.inList_spells {sql : String} {x : Value} (h : Piece E s sql [] x) {α : Type}
    {elements : List α} {vs : List Value} (hlen : markTokens elements = markTokens vs)
    (hvs : vs ≠ []) {t : Option Bool} (ht : (memberOf x vs).truth = t) :
    Says E s ⟨sql ++ " IN (" ++ String.intercalate ", " (elements.map fun _ => "?") ++ ")", vs⟩
      t := by
  obtain ⟨ts, us, e, hlex, hvoc, hbind, hprim, heval⟩ := h
  have hmarks := lex_paren (lex_marks elements)
  rw [hlen] at hmarks
  have hin : lex "IN" = some [.word "IN"] := lex_ofList rfl rfl
  have htext := lex_space (lex_space hlex hin) hmarks
  have hsql : sql ++ " IN (" ++ String.intercalate ", " (elements.map fun _ => "?") ++ ")" =
      sql ++ " " ++ "IN" ++ " " ++
        ("(" ++ String.intercalate ", " (elements.map fun _ => "?") ++ ")") := by
    rw [show " IN (" = " " ++ "IN" ++ " " ++ "(" from rfl]
    simp only [String.append_assoc]
  rw [← hsql, List.append_assoc] at htext
  have hmarked : bind (Token.word "IN" :: Token.sym "(" :: (markTokens vs ++ [Token.sym ")"])) vs =
      some (Token.word "IN" :: Token.sym "(" :: (boundTokens vs ++ [Token.sym ")"])) := by
    have happ := bind_append (bind_marks vs) (show bind [.sym ")"] [] = some [.sym ")"] from rfl)
    rw [List.append_nil] at happ
    rw [bind_cons (by simp), bind_cons (by simp), happ]
    rfl
  refine ⟨_, _, _, htext, ?_, bind_append hbind hmarked, hprim.inList (listed_bound hvs), ?_⟩
  · refine List.forall_mem_append.mpr ⟨hvoc, List.forall_mem_append.mpr ⟨by decide, ?_⟩⟩
    exact List.forall_mem_cons.mpr ⟨by decide,
      List.forall_mem_append.mpr ⟨marks_known vs, by decide⟩⟩
  · rw [Ast.eval, heval, evals_lits, ht]

theorem Piece.inList {sql : String} {x : Value} (h : Piece E s sql [] x) {α : Type}
    {elements : List α} {vs : List Value} (hlen : markTokens elements = markTokens vs)
    (hvs : vs ≠ []) {b : Bool} (hb : (memberOf x vs).truth = some b) :
    Means E s ⟨sql ++ " IN (" ++ String.intercalate ", " (elements.map fun _ => "?") ++ ")", vs⟩
      b :=
  h.inList_spells hlen hvs hb

theorem marks_map {α β : Type} (f : α → β) (xs : List α) :
    markTokens (xs.map f) = markTokens xs := by
  induction xs with
  | nil => rfl
  | cons x xs ih =>
    cases xs with
    | nil => rfl
    | cons y ys => exact congrArg (fun ts => Token.param :: Token.sym "," :: ts) ih

end

section

variable {c : Shelves} {isMatch : String → String → Bool} {en : Entry}

/-- The tokens of one keyword's `CASE`, around what stands for its pattern and for itself. -/
def caseTokens (pattern keyword : Token) : List Token :=
  Token.sym "(" :: (Token.word "CASE" :: Token.word "WHEN" ::
    (((textColumnTokens .title ++ Token.word "LIKE" ::
      ([Token.str "%", Token.sym "||", pattern, Token.sym "||", Token.str "%"] ++
        Token.word "ESCAPE" :: [Token.str "\\"])) ++
        Token.word "OR" :: (existsFrom "tags" "t" ++ Token.word "WHERE" ::
          ((sameEntryTokens "t" ++ Token.word "AND" ::
            ((Token.word "lower" :: Token.sym "(" ::
              ([Token.word "t", Token.sym ".", Token.word "value"] ++ [Token.sym ")"])) ++
              Token.sym "=" ::
                (Token.word "lower" :: Token.sym "(" :: ([keyword] ++ [Token.sym ")"])))) ++
            [Token.sym ")"]))) ++ Token.word "THEN" :: ([Token.word "1"] ++ Token.word "ELSE" ::
              ([Token.word "0"] ++ [Token.word "END"])))) ++ [Token.sym ")"]

set_option maxRecDepth 4000 in
theorem lex_keywordCase : lex keywordCase = some (caseTokens .param .param) :=
  lex_ofList rfl rfl

theorem case_known : ∀ t ∈ caseTokens .param .param, t ∈ vocabulary := by
  decide

def caseAst (k : String) : Ast :=
  .ite (.bin .or
    (.like (.call "COALESCE" [.col "entries" "title", .lit (.text "")])
      (.bin .cat (.bin .cat (.lit (.text "%")) (.lit (.text (likeEscape k)))) (.lit (.text "%")))
      (.lit (.text "\\")))
    (.anyRow [("tags", "t")] [.bin .and (sameEntry "t")
      (.bin .eq (.call "lower" [.col "t" "value"]) (.call "lower" [.lit (.text k)]))]))
    (.lit (.int 1)) (.lit (.int 0))

theorem primary_case_tokens (k : String) :
    Primary (caseTokens (.bound (.text (likeEscape k))) (.bound (.text k))) (caseAst k) := by
  have htitle : Primary (textColumnTokens .title)
      (.call "COALESCE" [.col "entries" "title", .lit (.text "")]) :=
    (((primary_col isName_entries "title").operand 0).listed_cons
      ((primary_str "").operand 0).listed).call rfl
  have hlower : Clause _ (.bin .eq (.call "lower" [.col "t" "value"])
      (.call "lower" [.lit (.text k)])) :=
    (((primary_col isName_aliases.1 "value").operand 0).listed.call
      isName_aliases.2.2.2.2.2).compare tailOf_eq (by omega)
      (((primary_bound (.text k)).operand 0).listed.call isName_aliases.2.2.2.2.2)
  have htags := ((Clause.and (clause_sameEntry isName_aliases.1) hlower).operand
    (by omega)).exists "tags" "t"
  have hcond := (Clause.or (htitle.like "\\" (operand_occurs (.text (likeEscape k))))
    htags.clause).operand (by omega)
  exact ((hcond.ite ((primary_number (i := 1) (by decide) rfl).operand 0)
    ((primary_number (i := 0) (by decide) rfl).operand 0)).operand 0).paren

theorem eval_case (k : String) :
    (caseAst k).eval (c.engine isMatch) (scopeOf en) = .int (if hit c en k then 1 else 0) := by
  have hrow : ∀ t : Ingest.Tag, (((Ast.bin .and (sameEntry "t") (.bin .eq
      (.call "lower" [.col "t" "value"]) (.call "lower" [.lit (.text k)]))).eval
        (c.engine isMatch) (("t", Shelves.tagRow t) :: scopeOf en)).truth == some true) =
      (t.entryId == en.entryId && lowered t.value == lowered k) := by
    intro t
    have hlower : ∀ x, (c.engine isMatch).call "lower" [.text x] = .text (lowered x) :=
      fun _ => rfl
    simp [Ast.eval, evals, sameEntry, scopeOf, Shelves.tagRow, Shelves.entryRow, List.lookup_cons,
      hlower]
  have htags := eval_exists (E := c.engine isMatch) (s := scopeOf en) (t := "tags") c.tags
    Shelves.tagRow rfl hrow
  have htitle : (Ast.call "COALESCE" [.col "entries" "title", .lit (.text "")]).eval
      (c.engine isMatch) (scopeOf en) = .text en.title := rfl
  have hhit : hit c en k = (Like.occurs k.toList en.title.toList ||
      c.tags.any fun t => t.entryId == en.entryId && lowered t.value == lowered k) := by
    rw [hit, tagValues, List.any_map, List.any_filter]
    simp only [Option.isNone_none, Bool.true_or, Bool.and_true]
    rfl
  have hlike : (Ast.like (.call "COALESCE" [.col "entries" "title", .lit (.text "")])
      (.bin .cat (.bin .cat (.lit (.text "%")) (.lit (.text (likeEscape k)))) (.lit (.text "%")))
      (.lit (.text "\\"))).eval (c.engine isMatch) (scopeOf en) =
      ofBool (Like.occurs k.toList en.title.toList) := by
    rw [Ast.eval, htitle]
    exact likeValue_occurs _ _
  have hcond : (Ast.bin .or
      (.like (.call "COALESCE" [.col "entries" "title", .lit (.text "")])
        (.bin .cat (.bin .cat (.lit (.text "%")) (.lit (.text (likeEscape k)))) (.lit (.text "%")))
        (.lit (.text "\\")))
      (.anyRow [("tags", "t")] [.bin .and (sameEntry "t")
        (.bin .eq (.call "lower" [.col "t" "value"]) (.call "lower" [.lit (.text k)]))])).eval
          (c.engine isMatch) (scopeOf en) = ofBool (hit c en k) := by
    rw [Ast.eval, hlike, htags, Engine.apply_or, hhit]
  rw [caseAst, eval_ite (by rw [hcond, Value.truth_ofBool])]
  cases hit c en k <;> rfl

theorem lex_cases (k : String) (ks : List String) :
    lex (String.intercalate " + " ((k :: ks).map fun _ => keywordCase)) =
      some (caseTokens .param .param ++
        ks.flatMap fun _ => Token.sym "+" :: caseTokens .param .param) := by
  induction ks generalizing k with
  | nil =>
    rw [List.map_cons, List.map_nil, String.intercalate_singleton, List.flatMap_nil,
      List.append_nil, lex_keywordCase]
  | cons k' ks ih =>
    have hplus := lex_space (lex_space lex_keywordCase
      (show lex "+" = some [.sym "+"] from lex_ofList rfl rfl)) (ih k')
    rw [List.map_cons, List.map_cons, String.intercalate_cons_cons,
      show " + " = " " ++ "+" ++ " " from rfl, ← String.append_assoc, ← String.append_assoc]
    rw [List.append_assoc, List.singleton_append] at hplus
    exact hplus

theorem cases_known (ks : List String) :
    ∀ t ∈ caseTokens .param .param ++ ks.flatMap fun _ => Token.sym "+" :: caseTokens .param .param,
      t ∈ vocabulary := by
  refine List.forall_mem_append.mpr ⟨case_known, fun t ht => ?_⟩
  obtain ⟨k, -, hk⟩ := List.mem_flatMap.mp ht
  exact (List.forall_mem_cons.mpr ⟨by decide, case_known⟩ : ∀ t ∈ _ :: _, t ∈ vocabulary) t hk

def boundCase (k : String) : List Token :=
  caseTokens (.bound (.text (likeEscape k))) (.bound (.text k))

theorem bind_case (k : String) :
    bind (caseTokens .param .param) [.text (likeEscape k), .text k] = some (boundCase k) := rfl

theorem bind_cases (k : String) (ks : List String) :
    bind (caseTokens .param .param ++ ks.flatMap fun _ => Token.sym "+" :: caseTokens .param .param)
      ((k :: ks).flatMap fun k => [.text (likeEscape k), .text k]) =
        some (boundCase k ++ ks.flatMap fun k => Token.sym "+" :: boundCase k) := by
  rw [List.flatMap_cons]
  apply bind_append (bind_case k)
  induction ks with
  | nil => rfl
  | cons k' ks ih =>
    rw [List.flatMap_cons, List.flatMap_cons, List.flatMap_cons]
    apply bind_append _ ih
    rw [bind_cons (by simp), bind_case]
    rfl

theorem eval_sum (ks : List String) {e : Ast} {m : ℕ}
    (he : e.eval (c.engine isMatch) (scopeOf en) = .int m) :
    (ks.foldl (fun l k => .bin .add l (caseAst k)) e).eval (c.engine isMatch) (scopeOf en) =
      .int ((m + ks.countP (hit c en) : ℕ) : ℤ) := by
  induction ks generalizing e m with
  | nil => exact he
  | cons k ks ih =>
    have hadd : (Ast.bin .add e (caseAst k)).eval (c.engine isMatch) (scopeOf en) =
        .int ((m + (if hit c en k then 1 else 0) : ℕ) : ℤ) := by
      rw [Ast.eval, he, eval_case]
      cases hit c en k <;> rfl
    rw [List.foldl_cons, ih hadd, List.countP_cons]
    congr 2
    omega

/-- The sum of the keywords' cases counts the keywords that hit. -/
theorem piece_score (k : String) (ks : List String) :
    Piece (c.engine isMatch) (scopeOf en)
      ("(" ++ String.intercalate " + " ((k :: ks).map fun _ => keywordCase) ++ ")")
      ((k :: ks).flatMap fun k => [.text (likeEscape k), .text k])
      (.int ((k :: ks).countP (hit c en) : ℕ)) := by
  have hchain := Reads.chain (k := 0) tailOf_add (by omega) boundCase caseAst ks
    (fun k _ => primary_case_tokens k) ((primary_case_tokens k).reads 0 8)
  have hbound := bind_append (bind_cases k ks) (show bind [.sym ")"] [] = some [.sym ")"] from rfl)
  rw [List.append_nil] at hbound
  refine ⟨_, _, _, lex_paren (lex_cases k ks), ?_, ?_, (hchain.operand (by omega)).paren, ?_⟩
  · exact List.forall_mem_cons.mpr ⟨by decide,
      List.forall_mem_append.mpr ⟨cases_known ks, by decide⟩⟩
  · rw [List.cons_append, bind_cons (by simp), hbound]
    rfl
  · rw [eval_sum ks (m := if hit c en k then 1 else 0) (by
      rw [eval_case]
      cases hit c en k <;> rfl), List.countP_cons]
    congr 2
    omega

end

end EtvStation.Query
