import EtvStation.Query.Correct
import Mathlib.Logic.Basic

/-! What a query and its negation leave out. A text column that is unset reads as the empty text; a
numeric one stays null, and a comparison with null is unknown, which no negation makes true. -/
namespace EtvStation.Query

open Ingest (Entry TagNs)
open Lib
open Lib.Sql
open Lib.Sql.Value (null)

/-- `item.<name>` of a numeric column that is not set. -/
def Expr.isUnset (en : Entry) : Expr → Bool
  | .select (.ident root) field =>
    root == "item" &&
      match FieldKind.resolve field with
      | some (.num f) => f.value en == .num none
      | _ => false
  | _ => false

/-- A comparison or an `in` asks a number that is not there. Nothing is in the empty list, whatever
is asked. -/
def asksUnset (en : Entry) (func : String) (a b : Expr) : Bool :=
  (a.isUnset en || b.isUnset en) &&
    !(func == "@in" &&
      match b with
      | .list [] => true
      | _ => false)

section

variable (c : Shelves) (isMatch : String → String → Bool) (en : Entry)

mutual

/-- What an expression says of an entry: nothing where it hangs on a number that is not set. -/
def Expr.truth : Expr → Option Bool
  | .call none func args => callTruth func args
  | e => some (e.holds c isMatch en)

def callTruth (func : String) : List Expr → Option Bool
  | a :: b :: rest =>
    if func = "_&&_" then and3 a.truth b.truth
    else if func = "_||_" then or3 a.truth b.truth
    else if func = "!_" then a.truth.map (!·)
    else if asksUnset en func a b then none
    else some ((Expr.call none func (a :: b :: rest)).holds c isMatch en)
  | [a] => if func = "!_" then a.truth.map (!·) else none
  | [] => none

end

end

variable {c : Shelves} {isMatch : String → String → Bool} {en : Entry}

/-! ## Leaves -/

theorem piece_column_null {E : Engine} {f : ScalarField} (hf : f.value en = .num none) :
    Piece E (scopeOf en) ("entries." ++ f.name) [] null := by
  refine ⟨columnTokens f, columnTokens f, .col "entries" f.name, lex_column f, column_known f, rfl,
    primary_col isName_entries f.name, ?_⟩
  simp only [Ast.eval, scopeOf, List.lookup_cons, beq_self_eq_true, Option.map_some, Option.getD_some,
    entryRow_name, hf]
  rfl

/-- A comparison with null is unknown. -/
theorem comparisonOp_null {func op : String} (h : comparisonOp func = .ok op) :
    ∃ o, IsOp op o ∧ ∀ (E : Engine) (v : Value), (E.apply o null v).truth = none := by
  have hunknown : ∀ v, Value.order null v = none := fun v => by cases v <;> rfl
  unfold comparisonOp at h
  split_ifs at h with h1 h2 h3 h4 h5 h6
  · rw [← Except.ok.inj h]
    exact ⟨.eq, isOp_eq, fun E v => by rw [Engine.apply, hunknown]; rfl⟩
  · rw [← Except.ok.inj h]
    exact ⟨.ne, isOp_ne, fun E v => by rw [Engine.apply, hunknown]; rfl⟩
  · rw [← Except.ok.inj h]
    exact ⟨.ge, isOp_ge, fun E v => by rw [Engine.apply, hunknown]; rfl⟩
  · rw [← Except.ok.inj h]
    exact ⟨.le, isOp_le, fun E v => by rw [Engine.apply, hunknown]; rfl⟩
  · rw [← Except.ok.inj h]
    exact ⟨.gt, isOp_gt, fun E v => by rw [Engine.apply, hunknown]; rfl⟩
  · rw [← Except.ok.inj h]
    exact ⟨.lt, isOp_lt, fun E v => by rw [Engine.apply, hunknown]; rfl⟩

theorem memberOf_null (xs : List Value) : (memberOf null xs).truth = none := by
  have hnone : (xs.any fun y => Value.order null y == some .eq) = false := by
    rw [List.any_eq_false]
    intro y _
    cases y <;> exact Bool.false_ne_true
  rw [memberOf, hnone, if_neg Bool.false_ne_true, if_pos (Or.inl rfl)]
  rfl

theorem isUnset_item {name : String} {f : ScalarField}
    (h : FieldKind.resolve name = some (.num f)) :
    (Expr.select (.ident "item") name).isUnset en = (f.value en == .num none) := by
  rw [Expr.isUnset, h]
  rfl

/-- Only a numeric column can be unset. -/
theorem isUnset_item_of_ne {name : String} {kind : FieldKind}
    (h : FieldKind.resolve name = some kind) (hne : ∀ f, kind ≠ .num f) :
    (Expr.select (.ident "item") name).isUnset en = false := by
  rw [Expr.isUnset, h]
  cases kind with
  | num f => exact absurd rfl (hne f)
  | str f => rfl
  | tag ns => rfl
  | source => rfl
  | collection => rfl
  | fsDir => rfl

theorem fields_literal (l : Literal) : (Expr.literal l).fields = [] := by
  simp [Expr.fields]

theorem fields_literals {α : Type} (f : α → Literal) (vs : List α) :
    fieldsOf (vs.map fun v => .literal (f v)) = [] := by
  induction vs with
  | nil => rfl
  | cons v vs ih => rw [List.map_cons, fieldsOf, fields_literal, List.nil_append, ih]

/-- What a comparison that is accepted compares: a score with a number, or a field with a
literal. -/
theorem comparison_compares {func : String} {lhs rhs : Expr} {w : WhereClause}
    (h : comparison func lhs rhs = .ok w) :
    (lhs.fields ++ rhs.fields = [] ∧ lhs.isUnset en = false ∧ rhs.isUnset en = false) ∨
    ∃ name kind, FieldKind.resolve name = some kind ∧ lhs.fields ++ rhs.fields = [name] ∧
      (lhs.isUnset en || rhs.isUnset en) = (Expr.select (.ident "item") name).isUnset en ∧
      ∀ f, kind = .num f → ∃ func' op v, comparisonOp func' = .ok op ∧
        w = ⟨"entries." ++ f.name ++ " " ++ op ++ " ?", [.int v]⟩ := by
  have hscored : ∀ (vs : List String) (n : ℤ),
      (Expr.call none "keyword_score" [.list (vs.map fun s => .literal (.string s))]).fields = [] ∧
        (Expr.literal (.int n)).fields = [] := by
    intro vs n
    refine ⟨?_, fields_literal _⟩
    simp only [Expr.fields, fieldsOf, fields_literals Literal.string vs, List.append_nil]
  unfold comparison at h
  split at h
  · rename_i args hargs
    obtain ⟨vs, n, op, o, r, rfl, rfl, -⟩ :=
      keywordScoreComparison_means {} (fun _ _ => true) numbered h
    left
    rw [keywordScoreCall_eq hargs, (hscored vs n).1, (hscored vs n).2]
    exact ⟨rfl, rfl, rfl⟩
  · rename_i args _ hargs
    obtain ⟨vs, n, op, o, r, rfl, rfl, -⟩ :=
      keywordScoreComparison_means {} (fun _ _ => true) numbered h
    left
    rw [keywordScoreCall_eq hargs, (hscored vs n).1, (hscored vs n).2]
    exact ⟨rfl, rfl, rfl⟩
  · obtain ⟨⟨name, lit, onRight⟩, hfl, h⟩ := Lib.bind_eq_ok.mp h
    simp only at h
    obtain ⟨kind, hkind, h⟩ := Lib.bind_eq_ok.mp h
    obtain ⟨op, hop, h⟩ := Lib.bind_eq_ok.mp h
    have hres := resolveField_eq hkind
    have hsides := fieldAndLiteral_eq hfl
    have hparts : ∀ l, lit = .literal l → lhs.fields ++ rhs.fields = [name] ∧
        (lhs.isUnset en || rhs.isUnset en) = (Expr.select (.ident "item") name).isUnset en := by
      rintro l rfl
      cases onRight with
      | false =>
        obtain ⟨rfl, rfl⟩ := hsides
        exact ⟨by rw [fields_literal, Expr.fields]; rfl, Bool.or_false _⟩
      | true =>
        obtain ⟨rfl, rfl⟩ := hsides
        exact ⟨by rw [fields_literal, Expr.fields]; rfl, Bool.false_or _⟩
    right
    cases kind with
    | str f =>
      simp only at h
      split_ifs at h with hbad
      obtain ⟨v, hv, h⟩ := Lib.bind_eq_ok.mp h
      obtain ⟨hfields, hunset⟩ := hparts _ (literalText_eq.mp hv)
      exact ⟨name, _, hres, hfields, hunset, fun _ hf => by cases hf⟩
    | num f =>
      simp only at h
      obtain ⟨v, hv, h⟩ := Lib.bind_eq_ok.mp h
      obtain ⟨hfields, hunset⟩ := hparts _ (literalInt_eq.mp hv)
      refine ⟨name, _, hres, hfields, hunset, fun f' hf' => ?_⟩
      obtain rfl := FieldKind.num.inj hf'
      exact ⟨_, op, v, hop, (Except.ok.inj h).symm⟩
    | tag ns =>
      simp only at h
      rw [if_neg fun hx => by simp at hx] at h
      cases h
    | collection =>
      simp only at h
      rw [if_neg fun hx => by simp at hx] at h
      cases h
    | source =>
      simp only at h
      have hop' : op = "=" := by
        by_contra hne
        rw [if_neg fun hx => hne hx.2] at h
        cases h
      rw [if_pos ⟨by simp, hop'⟩] at h
      obtain ⟨v, hv, h⟩ := Lib.bind_eq_ok.mp h
      obtain ⟨hfields, hunset⟩ := hparts _ (literalText_eq.mp hv)
      exact ⟨name, _, hres, hfields, hunset, fun _ hf => by cases hf⟩
    | fsDir =>
      simp only at h
      have hop' : op = "=" := by
        by_contra hne
        rw [if_neg fun hx => hne hx.2] at h
        cases h
      rw [if_pos ⟨by simp, hop'⟩] at h
      obtain ⟨v, hv, h⟩ := Lib.bind_eq_ok.mp h
      obtain ⟨hfields, hunset⟩ := hparts _ (literalText_eq.mp hv)
      exact ⟨name, _, hres, hfields, hunset, fun _ hf => by cases hf⟩

/-- A field that is not an unset number leaves every number that is read set. -/
theorem numbers_set {name : String}
    (h : (Expr.select (.ident "item") name).isUnset en = false) :
    ∀ f : ScalarField, f.kind = .num → f.name ∈ [name] → f.value en ≠ .num none := by
  intro f hf hmem hnone
  have hname := List.mem_singleton.mp hmem
  have hfield : FieldKind.resolve name = some (.num f) := by
    rw [← hname, FieldKind.resolve, ScalarField.fromName_name]
    simp only [hf]
  rw [isUnset_item hfield, hnone] at h
  simp at h

/-- A comparison says what it compares, and nothing of a number that is not set. -/
theorem comparison_spells {func : String} (hf : func ∈ comparisons) {lhs rhs : Expr}
    {w : WhereClause} (h : comparison func lhs rhs = .ok w) :
    if lhs.isUnset en || rhs.isUnset en then Says (c.engine isMatch) (scopeOf en) w none
    else ∃ r, Means (c.engine isMatch) (scopeOf en) w r ∧
      ((lhs.meaning c isMatch en).bind fun x => (rhs.meaning c isMatch en).bind fun y =>
        x.operator func y) = some (.bool r) := by
  obtain ⟨hfields, hl, hr⟩ | ⟨name, kind, hres, hfields, hunset, hnum⟩ :=
    @comparison_compares en _ _ _ _ h
  · rw [hl, hr, if_neg (by decide)]
    refine comparison_means hf h fun f _ hmem => ?_
    rw [hfields] at hmem
    cases hmem
  · rw [hunset]
    split_ifs with hnull
    · cases kind with
      | num f =>
        obtain ⟨func', op, v, hop, rfl⟩ := hnum f rfl
        obtain ⟨o, hisOp, hnone⟩ := comparisonOp_null hop
        rw [isUnset_item hres, beq_iff_eq] at hnull
        exact (piece_column_null hnull).compare_spells hisOp (hnone _ _)
      | str f => rw [isUnset_item_of_ne hres (by simp)] at hnull; cases hnull
      | tag ns => rw [isUnset_item_of_ne hres (by simp)] at hnull; cases hnull
      | source => rw [isUnset_item_of_ne hres (by simp)] at hnull; cases hnull
      | collection => rw [isUnset_item_of_ne hres (by simp)] at hnull; cases hnull
      | fsDir => rw [isUnset_item_of_ne hres (by simp)] at hnull; cases hnull
    · refine comparison_means hf h ?_
      rw [hfields]
      exact numbers_set (Bool.not_eq_true _ ▸ hnull)

theorem holds_of_meaning {e : Expr} {r : Bool} (h : e.meaning c isMatch en = some (.bool r)) :
    e.holds c isMatch en = r := by
  rw [Expr.holds, h]

/-- An `in` says whether the list holds the field, and nothing of a number that is not set. -/
theorem inList_spells {lhs rhs : Expr} {w : WhereClause} (h : inList lhs rhs = .ok w) :
    if asksUnset en "@in" lhs rhs then Says (c.engine isMatch) (scopeOf en) w none
    else ∃ r, Means (c.engine isMatch) (scopeOf en) w r ∧
      (∀ rest, (Expr.call none "@in" (lhs :: rhs :: rest)).holds c isMatch en = r) := by
  have hwhole := h
  unfold inList at hwhole
  obtain ⟨name, hname, hkinds⟩ := Lib.bind_eq_ok.mp hwhole
  obtain ⟨kind, hkind, hparts⟩ := Lib.bind_eq_ok.mp hkinds
  have hres := resolveField_eq hkind
  clear hwhole hkinds
  obtain rfl := fieldOf_eq hname
  obtain ⟨elements, rfl⟩ : ∃ elements, rhs = .list elements := by
    cases rhs <;> first | exact ⟨_, rfl⟩ | cases hparts
  simp only at hparts
  · cases elements with
    | nil =>
      rw [← Except.ok.inj hparts, asksUnset, if_neg (by simp)]
      refine ⟨false, Piece.means (v := .int 0) ⟨[.word "0"], [.word "0"], .lit (.int 0),
        lex_ofList rfl rfl, by decide, rfl, primary_number (by decide) rfl, rfl⟩ rfl, fun rest => ?_⟩
      rw [Expr.holds, meaning_binary (by decide), meaning_item]
      cases fieldVal c en name with
      | none => rfl
      | some x =>
        rw [Option.bind_some, Expr.meaning, meanings, Option.map_some, Option.bind_some,
          operator_in_nil]
    | cons e es =>
      have hasks : asksUnset en "@in" (.select (.ident "item") name) (.list (e :: es)) =
          (Expr.select (.ident "item") name).isUnset en := by
        unfold asksUnset
        simp [Expr.isUnset]
      rw [hasks]
      have hmeans : (Expr.select (.ident "item") name).isUnset en = false →
          fieldsOf (e :: es) = [] → ∃ r, Means (c.engine isMatch) (scopeOf en) w r ∧
            (∀ rest, (Expr.call none "@in" (.select (.ident "item") name :: .list (e :: es) ::
              rest)).holds c isMatch en = r) := by
        intro hset hfields
        obtain ⟨r, hmeans, hmeaning⟩ := @inList_means c isMatch en _ _ _ h (by
          rw [Expr.fields, Expr.fields, hfields]
          exact numbers_set hset)
        exact ⟨r, hmeans, fun rest => holds_of_meaning ((meaning_binary (by decide) _ _ rest).trans
          hmeaning)⟩
      simp only [List.isEmpty_cons, Bool.false_eq_true, if_false] at hparts
      cases kind with
      | str f =>
        obtain ⟨vals, hvals, -⟩ := Lib.bind_eq_ok.mp hparts
        have hset := @isUnset_item_of_ne en _ _ hres (by simp)
        rw [hset, if_neg (by decide)]
        apply hmeans hset
        rw [mapM_literalText hvals, fields_literals Literal.string]
      | num f =>
        obtain ⟨vals, hvals, hparts⟩ := Lib.bind_eq_ok.mp hparts
        have hel := mapM_literalInt hvals
        split_ifs with hnull
        · rw [isUnset_item hres, beq_iff_eq] at hnull
          have hne : vals.map Value.int ≠ [] := by
            intro hnil
            rw [List.map_eq_nil_iff.mp hnil] at hel
            cases hel
          rw [← Except.ok.inj hparts, hel]
          refine (piece_column_null hnull).inList_spells ?_ hne (memberOf_null _)
          rw [marks_map, marks_map]
        · apply hmeans (Bool.not_eq_true _ ▸ hnull)
          rw [hel, fields_literals Literal.int]
      | tag ns => cases hparts
      | source => cases hparts
      | collection => cases hparts
      | fsDir => cases hparts

/-! ## Whole expressions -/

theorem Piece.spells {E : Engine} {s : Scope} {sql : String} {params : List Value}
    {t : Option Bool} (h : Piece E s sql params (Value.ofTruth t)) : Says E s ⟨sql, params⟩ t := by
  obtain ⟨ts, us, e, hlex, hvoc, hbind, hprim, heval⟩ := h
  exact ⟨ts, us, e, hlex, hvoc, hbind, hprim.clause, by rw [heval, Value.truth_ofTruth]⟩

theorem operatorPredicate_spells {func : String} {args : List Expr} {w : WhereClause}
    (ih : ∀ a ∈ args, ∀ v, predicate a = .ok v →
      Says (c.engine isMatch) (scopeOf en) v (a.truth c isMatch en))
    (h : operatorPredicate func args = .ok w) :
    Says (c.engine isMatch) (scopeOf en) w (callTruth c isMatch en func args) := by
  cases args with
  | nil =>
    rw [operatorPredicate] at h
    split_ifs at h
  | cons a rest =>
    have hnot : ∀ inner, predicate a = .ok inner →
        Says (c.engine isMatch) (scopeOf en) ⟨"(NOT " ++ inner.sql ++ ")", inner.params⟩
          ((a.truth c isMatch en).map (!·)) :=
      fun inner hinner => (ih a List.mem_cons_self inner hinner).not.spells
    cases rest with
    | nil =>
      rw [operatorPredicate] at h
      split_ifs at h with hn
      obtain ⟨inner, hinner, h⟩ := Lib.bind_eq_ok.mp h
      rw [← Except.ok.inj h, callTruth, if_pos hn]
      exact hnot inner hinner
    | cons b rest =>
      rw [operatorPredicate] at h
      by_cases hjoin : func = "_&&_" ∨ func = "_||_"
      · rw [if_pos hjoin] at h
        obtain ⟨left, hleft, h⟩ := Lib.bind_eq_ok.mp h
        obtain ⟨right, hright, h⟩ := Lib.bind_eq_ok.mp h
        have hp := ih a List.mem_cons_self left hleft
        have hq := ih b (List.mem_cons_of_mem _ List.mem_cons_self) right hright
        rw [← Except.ok.inj h, callTruth]
        obtain rfl | rfl := hjoin
        · exact (hp.paren hq true).spells
        · have hpiece := (hp.paren hq false).spells
          rw [if_neg (by decide), if_neg (by decide)] at hpiece
          exact hpiece
      · rw [if_neg hjoin] at h
        rw [not_or] at hjoin
        rw [callTruth, if_neg hjoin.1, if_neg hjoin.2]
        by_cases hn : func = "!_"
        · rw [if_pos hn] at h ⊢
          obtain ⟨inner, hinner, h⟩ := Lib.bind_eq_ok.mp h
          rw [← Except.ok.inj h]
          exact hnot inner hinner
        · rw [if_neg hn] at h ⊢
          split_ifs at h with hcmp hin
          · have hspells := @comparison_spells c isMatch en _ hcmp _ _ _ h
            have hasks : asksUnset en func a b = (a.isUnset en || b.isUnset en) := by
              have hne : (func == "@in") = false := by
                rw [beq_eq_false_iff_ne]
                rintro rfl
                exact absurd hcmp (by decide)
              unfold asksUnset
              rw [hne, Bool.false_and, Bool.not_false, Bool.and_true]
            rw [hasks]
            split_ifs at hspells ⊢ with hunset
            · exact hspells
            · obtain ⟨r, hmeans, hmeaning⟩ := hspells
              rw [holds_of_meaning ((meaning_binary hn a b rest).trans hmeaning)]
              exact hmeans
          · rw [hin]
            have hspells := @inList_spells c isMatch en _ _ _ h
            split_ifs at hspells ⊢ with hunset
            · exact hspells
            · obtain ⟨r, hmeans, hholds⟩ := hspells
              rw [hholds rest]
              exact hmeans

/-- The clause of an expression says what the expression does, unknown or not. -/
theorem predicate_spells (n : ℕ) : ∀ e : Expr, sizeOf e < n → ∀ w, predicate e = .ok w →
    Says (c.engine isMatch) (scopeOf en) w (e.truth c isMatch en) := by
  induction n with
  | zero => exact fun e he => absurd he (Nat.not_lt_zero _)
  | succ n ih =>
    intro e he w h
    cases e with
    | call target func args =>
      cases target with
      | some target =>
        rw [predicate] at h
        obtain ⟨r, hmeans, hmeaning⟩ := methodPredicate_means h
        have htruth : (Expr.call (some target) func args).truth c isMatch en = some r := by
          rw [Expr.truth, holds_of_meaning hmeaning]
          intro _ _ hcall
          cases hcall
        rw [htruth]
        exact hmeans
      | none =>
        rw [predicate] at h
        rw [Expr.truth]
        apply operatorPredicate_spells _ h
        intro a ha v hv
        apply ih a _ v hv
        have hsize := List.sizeOf_lt_of_mem ha
        simp only [Expr.call.sizeOf_spec] at he
        omega
    | unspecified => cases h
    | comprehension => cases h
    | ident name => cases h
    | list elements => cases h
    | literal l => cases h
    | map => cases h
    | select operand field => cases h
    | struct => cases h

theorem Says.prepare {E : Engine} {s : Scope} {w : WhereClause} {t : Option Bool}
    (h : Says E s w t) : ∃ q, Sql.prepare w.sql w.params = some q ∧ (q.eval E s).truth = t := by
  obtain ⟨ts, us, e, hlex, -, hbind, hcl, heval⟩ := h
  refine ⟨e, ?_, heval⟩
  rw [Sql.prepare, hlex, Option.bind_some, hbind, Option.bind_some,
    (hcl.operand (by omega)).parse]

def Shelves.chosen (c : Shelves) (isMatch : String → String → Bool) (e : Expr) :
    Option (List Entry) :=
  match translate e with
  | .ok w => c.select isMatch w
  | .error _ => none

/-- A query holds the entries its expression says is true. -/
theorem chosen_eq {e : Expr} {w : WhereClause} (h : translate e = .ok w) :
    c.chosen isMatch e = some ((c.entries.rows.map Prod.snd).filter fun en =>
      e.truth c isMatch en == some true) := by
  have hspells := fun en => @predicate_spells c isMatch en (sizeOf e + 1) e
    (Nat.lt_succ_self _) w h
  obtain ⟨q, hq, -⟩ := (hspells numbered).prepare
  rw [Shelves.chosen, h]
  change c.select isMatch w = _
  rw [Shelves.select, hq, Option.map_some, Option.some.injEq]
  apply List.filter_congr
  intro en _
  obtain ⟨q', hq', htruth⟩ := (hspells en).prepare
  rw [hq, Option.some.injEq] at hq'
  rw [hq', htruth]

def Expr.not (e : Expr) : Expr := .call none "!_" [e]
def Expr.and (a b : Expr) : Expr := .call none "_&&_" [a, b]
def Expr.or (a b : Expr) : Expr := .call none "_||_" [a, b]

theorem translate_not {e : Expr} {w : WhereClause} (h : translate e = .ok w) :
    ∃ w', translate e.not = .ok w' := by
  refine ⟨⟨"(NOT " ++ w.sql ++ ")", w.params⟩, ?_⟩
  rw [translate, Expr.not, predicate, operatorPredicate, if_pos rfl, show predicate e = .ok w from h]
  rfl

theorem translate_join {a b : Expr} {l r : WhereClause} (ha : translate a = .ok l)
    (hb : translate b = .ok r) :
    (∃ w, translate (a.and b) = .ok w) ∧ ∃ w, translate (a.or b) = .ok w := by
  constructor
  · refine ⟨⟨"(" ++ l.sql ++ " AND " ++ r.sql ++ ")", l.params ++ r.params⟩, ?_⟩
    rw [translate, Expr.and, predicate, operatorPredicate, if_pos (Or.inl rfl),
      show predicate a = .ok l from ha, show predicate b = .ok r from hb]
    rfl
  · refine ⟨⟨"(" ++ l.sql ++ " OR " ++ r.sql ++ ")", l.params ++ r.params⟩, ?_⟩
    rw [translate, Expr.or, predicate, operatorPredicate, if_pos (Or.inr rfl),
      show predicate a = .ok l from ha, show predicate b = .ok r from hb]
    rfl

@[simp] theorem truth_not (e : Expr) :
    e.not.truth c isMatch en = (e.truth c isMatch en).map (!·) := by
  rw [Expr.not, Expr.truth, callTruth, if_pos rfl]

@[simp] theorem truth_and (a b : Expr) :
    (a.and b).truth c isMatch en = and3 (a.truth c isMatch en) (b.truth c isMatch en) := by
  rw [Expr.and, Expr.truth, callTruth, if_pos rfl]

@[simp] theorem truth_or (a b : Expr) :
    (a.or b).truth c isMatch en = or3 (a.truth c isMatch en) (b.truth c isMatch en) := by
  rw [Expr.or, Expr.truth, callTruth, if_neg (by decide), if_pos rfl]

theorem not_and3 (a b : Option Bool) :
    (and3 a b).map (!·) = or3 (a.map (!·)) (b.map (!·)) := by
  rcases a with _ | _ | _ <;> rcases b with _ | _ | _ <;> rfl

theorem not_or3 (a b : Option Bool) :
    (or3 a b).map (!·) = and3 (a.map (!·)) (b.map (!·)) := by
  rcases a with _ | _ | _ <;> rcases b with _ | _ | _ <;> rfl

/-- Where every number that is read is set, an expression is true or false. -/
theorem truth_of_numbersSet {e : Expr} {w : WhereClause} (h : translate e = .ok w)
    (hset : e.NumbersSet en) : e.truth c isMatch en = some (e.holds c isMatch en) := by
  obtain ⟨r, hmeans, hmeaning⟩ := @predicate_means c isMatch _ (sizeOf e + 1) e
    (Nat.lt_succ_self _) w h hset
  obtain ⟨q, hq, htruth⟩ := hmeans.prepare
  obtain ⟨q', hq', htruth'⟩ := (@predicate_spells c isMatch en
    (sizeOf e + 1) e (Nat.lt_succ_self _) w h).prepare
  rw [hq, Option.some.injEq] at hq'
  rw [← htruth', ← hq', htruth, holds_of_meaning hmeaning]

def Expr.eq (a b : Expr) : Expr := .call none "_==_" [a, b]
def Expr.ne (a b : Expr) : Expr := .call none "_!=_" [a, b]

/-- `!=` is the negation of `==`, unknown where that is. -/
theorem truth_ne {a b : Expr} {w : WhereClause} (h : translate (a.eq b) = .ok w) :
    (a.ne b).truth c isMatch en = ((a.eq b).truth c isMatch en).map (!·) := by
  have hcmp : comparison "_==_" a b = .ok w := by
    rw [translate, Expr.eq, predicate, operatorPredicate, if_neg (by decide), if_neg (by decide),
      if_pos (by decide)] at h
    exact h
  have hspells := @comparison_spells c isMatch en _ (by decide) _ _ _ hcmp
  have hasks : ∀ func, func ≠ "@in" →
      asksUnset en func a b = (a.isUnset en || b.isUnset en) := by
    intro func hne
    unfold asksUnset
    rw [beq_eq_false_iff_ne.mpr hne, Bool.false_and, Bool.not_false, Bool.and_true]
  rw [Expr.ne, Expr.eq, Expr.truth, Expr.truth, callTruth, callTruth, hasks _ (by decide),
    hasks _ (by decide)]
  simp only [show ¬ ("_!=_" = "_&&_") by decide, show ¬ ("_!=_" = "_||_") by decide,
    show ¬ ("_!=_" = "!_") by decide, show ¬ ("_==_" = "_&&_") by decide,
    show ¬ ("_==_" = "_||_") by decide, show ¬ ("_==_" = "!_") by decide, if_false]
  split_ifs at hspells ⊢ with hunset
  · rfl
  · obtain ⟨r, -, hmeaning⟩ := hspells
    have heq := (@meaning_binary c isMatch en _
      (show "_==_" ≠ "!_" by decide) a b []).trans hmeaning
    obtain ⟨x, hx, hmeaning⟩ := Option.bind_eq_some_iff.mp hmeaning
    obtain ⟨y, hy, hmeaning⟩ := Option.bind_eq_some_iff.mp hmeaning
    have hne : (Expr.call none "_!=_" [a, b]).meaning c isMatch en = some (.bool (!x.same y)) := by
      rw [meaning_binary (by decide), hx, hy]
      rfl
    have hr : x.same y = r := by
      have hsame : Val.operator "_==_" x y = some (.bool (x.same y)) := rfl
      rw [hsame, Option.some.injEq, Val.bool.injEq] at hmeaning
      exact hmeaning
    rw [holds_of_meaning heq, holds_of_meaning hne, hr]
    rfl

section

variable (c : Shelves) (isMatch : String → String → Bool)

/-- What a query and its negation hold of the entries: none twice, and each once but those the
expression says nothing of. -/
structure Split (e : Expr) (held left : List Entry) : Prop where
  once : ∀ en ∈ held, en ∉ left
  known : ∀ en ∈ c.entries.rows.map Prod.snd,
    (en ∈ held ∨ en ∈ left) ↔ e.truth c isMatch en ≠ none
  numbers : ∀ en ∈ c.entries.rows.map Prod.snd, e.NumbersSet en → en ∈ held ∨ en ∈ left

/-- A query and its negation split the entries that the expression says something of, which it does
where every numeric column it reads is set. De Morgan's laws hold of all entries, and `!=` holds
those that the negation of `==` does. -/
theorem negation_splits :
    (∀ (e : Expr) w, translate e = .ok w → ∃ held left, c.chosen isMatch e = some held ∧
      c.chosen isMatch e.not = some left ∧ Split c isMatch e held left) ∧
    (∀ (a b : Expr) l r, translate a = .ok l → translate b = .ok r →
      c.chosen isMatch (a.and b).not = c.chosen isMatch (a.not.or b.not) ∧
        c.chosen isMatch (a.or b).not = c.chosen isMatch (a.not.and b.not)) ∧
    ∀ (a b : Expr) w w', translate (a.eq b) = .ok w → translate (a.ne b) = .ok w' →
      c.chosen isMatch (a.ne b) = c.chosen isMatch (a.eq b).not := by
  refine ⟨fun e w h => ?_, fun a b l r ha hb => ?_, fun a b w w' heq hne => ?_⟩
  · obtain ⟨w', hnot⟩ := translate_not h
    refine ⟨_, _, chosen_eq h, chosen_eq hnot, ?_⟩
    have hknown : ∀ en ∈ c.entries.rows.map Prod.snd,
        (en ∈ (c.entries.rows.map Prod.snd).filter (fun en => e.truth c isMatch en == some true) ∨
          en ∈ (c.entries.rows.map Prod.snd).filter
            fun en => e.not.truth c isMatch en == some true) ↔
        e.truth c isMatch en ≠ none := by
      intro en hen
      rw [List.mem_filter, List.mem_filter, truth_not]
      cases e.truth c isMatch en with
      | none => simp
      | some b => cases b <;> simp [hen]
    constructor
    · intro en hheld hleft
      rw [List.mem_filter, beq_iff_eq] at hheld hleft
      rw [truth_not, hheld.2] at hleft
      cases hleft.2
    · exact hknown
    · intro en hen hset
      rw [hknown en hen, truth_of_numbersSet h hset]
      nofun
  · obtain ⟨wa, ha'⟩ := translate_not ha
    obtain ⟨wb, hb'⟩ := translate_not hb
    obtain ⟨⟨wand, hand⟩, wor, hor⟩ := translate_join ha hb
    obtain ⟨⟨wand', hand'⟩, wor', hor'⟩ := translate_join ha' hb'
    obtain ⟨wn, hn⟩ := translate_not hand
    obtain ⟨wn', hn'⟩ := translate_not hor
    constructor
    · rw [chosen_eq hn, chosen_eq hor']
      simp only [truth_not, truth_and, truth_or, not_and3]
    · rw [chosen_eq hn', chosen_eq hand']
      simp only [truth_not, truth_and, truth_or, not_or3]
  · obtain ⟨wn, hn⟩ := translate_not heq
    rw [chosen_eq hne, chosen_eq hn]
    simp only [truth_not, truth_ne heq]

end

def undated : Shelves where
  entries := Table.empty.upsert "imdb:2" fun _ => { topGun with year := none }

/-- `item.year == 1986` does not hold it, and neither does the negation. -/
theorem undated_in_neither :
    (undated.entries.rows.map Prod.snd) = [{ topGun with year := none }] ∧
      undated.chosen (fun _ _ => true)
        (.eq (.select (.ident "item") "year") (.literal (.int 1986))) = some [] ∧
      undated.chosen (fun _ _ => true)
        (Expr.eq (.select (.ident "item") "year") (.literal (.int 1986))).not = some [] := by
  refine ⟨rfl, ?_, ?_⟩
  · rw [chosen_eq rfl]
    decide
  · rw [chosen_eq rfl]
    decide

end EtvStation.Query
