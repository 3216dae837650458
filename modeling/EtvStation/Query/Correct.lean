import Mathlib.Data.List.Perm.Lattice
import EtvStation.Lib.Outcome
import EtvStation.Query.Lists

/-! A translated clause selects the entries its expression is true of. -/
namespace EtvStation.Query

open Ingest (Entry TagNs)
open Lib
open Lib.Sql
open Lib.Sql.Value (ofBool)

theorem literalText_eq {e : Expr} {s : String} :
    literalText e = .ok s ↔ e = .literal (.string s) := by
  constructor
  · intro h
    unfold literalText at h
    split at h
    · rw [Except.ok.inj h]
    · cases h
  · intro h
    rw [h]
    rfl

theorem literalInt_eq {e : Expr} {i : ℤ} : literalInt e = .ok i ↔ e = .literal (.int i) := by
  constructor
  · intro h
    unfold literalInt at h
    split at h
    · rw [Except.ok.inj h]
    · cases h
  · intro h
    rw [h]
    rfl

theorem literalLike_eq {e : Expr} {s : String} (h : literalLike e = .ok s) :
    ∃ v, e = .literal (.string v) ∧ s = likeEscape v := by
  rw [literalLike] at h
  cases ht : literalText e with
  | error m =>
    rw [ht] at h
    cases h
  | ok v =>
    rw [ht] at h
    exact ⟨v, literalText_eq.mp ht, (Except.ok.inj h).symm⟩

theorem fieldOf_eq {e : Expr} {f : String} (h : fieldOf e = .ok f) :
    e = .select (.ident "item") f := by
  unfold fieldOf at h
  split at h
  · split_ifs at h with hroot
    rw [hroot, Except.ok.inj h]
  · cases h

theorem resolveField_eq {name : String} {kind : FieldKind} (h : resolveField name = .ok kind) :
    FieldKind.resolve name = some kind := by
  unfold resolveField at h
  split at h
  · rename_i k hk
    rw [hk, Except.ok.inj h]
  · cases h

theorem resolve_str {name : String} {f : ScalarField}
    (h : FieldKind.resolve name = some (.str f)) : f.name = name ∧ f.kind = .str := by
  unfold FieldKind.resolve at h
  split at h
  · rename_i g hg
    cases hk : g.kind with
    | num => simp [hk] at h
    | str =>
      simp only [hk, Option.some.injEq, FieldKind.str.injEq] at h
      exact ⟨h ▸ ScalarField.name_of_fromName hg, h ▸ hk⟩
  · split_ifs at h <;> simp at h

theorem resolve_num {name : String} {f : ScalarField}
    (h : FieldKind.resolve name = some (.num f)) : f.name = name ∧ f.kind = .num := by
  unfold FieldKind.resolve at h
  split at h
  · rename_i g hg
    cases hk : g.kind with
    | str => simp [hk] at h
    | num =>
      simp only [hk, Option.some.injEq, FieldKind.num.injEq] at h
      exact ⟨h ▸ ScalarField.name_of_fromName hg, h ▸ hk⟩
  · split_ifs at h <;> simp at h

theorem value_str {f : ScalarField} (hf : f.kind = .str) (en : Entry) :
    ∃ s, f.value en = .str s := by
  cases f <;> first | exact ⟨_, rfl⟩ | cases hf

theorem value_num {f : ScalarField} (hf : f.kind = .num) (en : Entry) :
    ∃ i, f.value en = .num i := by
  cases f <;> first | exact ⟨_, rfl⟩ | cases hf

theorem mapM_literalText {es : List Expr} {vs : List String} (h : es.mapM literalText = .ok vs) :
    es = vs.map fun s => .literal (.string s) := by
  induction es generalizing vs with
  | nil =>
    rw [List.mapM_nil] at h
    rw [← Except.ok.inj h]
    rfl
  | cons e es ih =>
    rw [List.mapM_cons] at h
    obtain ⟨v, hv, h⟩ := Lib.bind_eq_ok.mp h
    obtain ⟨rest, hrest, h⟩ := Lib.bind_eq_ok.mp h
    rw [← Except.ok.inj h, List.map_cons, ← ih hrest, literalText_eq.mp hv]

theorem mapM_literalInt {es : List Expr} {vs : List ℤ} (h : es.mapM literalInt = .ok vs) :
    es = vs.map fun i => .literal (.int i) := by
  induction es generalizing vs with
  | nil =>
    rw [List.mapM_nil] at h
    rw [← Except.ok.inj h]
    rfl
  | cons e es ih =>
    rw [List.mapM_cons] at h
    obtain ⟨v, hv, h⟩ := Lib.bind_eq_ok.mp h
    obtain ⟨rest, hrest, h⟩ := Lib.bind_eq_ok.mp h
    rw [← Except.ok.inj h, List.map_cons, ← ih hrest, literalInt_eq.mp hv]

/-! ## Comparisons -/

theorem isOp_eq : IsOp "=" .eq :=
  ⟨lex_ofList rfl rfl, by decide, 4, by simp [tailOf], by omega⟩

theorem isOp_ne : IsOp "<>" .ne :=
  ⟨lex_ofList rfl rfl, by decide, 4, by simp [tailOf], by omega⟩

theorem isOp_ge : IsOp ">=" .ge :=
  ⟨lex_ofList rfl rfl, by decide, 5, by simp [tailOf], by omega⟩

theorem isOp_le : IsOp "<=" .le :=
  ⟨lex_ofList rfl rfl, by decide, 5, by simp [tailOf], by omega⟩

theorem isOp_gt : IsOp ">" .gt :=
  ⟨lex_ofList rfl rfl, by decide, 5, by simp [tailOf], by omega⟩

theorem isOp_lt : IsOp "<" .lt :=
  ⟨lex_ofList rfl rfl, by decide, 5, by simp [tailOf], by omega⟩

theorem order_int {a b : ℤ} : Value.order (.int a) (.int b) = some (if a = b then .eq
    else if a < b then .lt else .gt) := rfl

/-- What each comparison of numbers is written as, and that it says the same. -/
theorem comparisonOp_int {func op : String} (h : comparisonOp func = .ok op) :
    ∃ o, IsOp op o ∧ ∀ (E : Engine) (a b : ℤ), ∃ r,
      (E.apply o (.int a) (.int b)).truth = some r ∧
        Val.operator func (.int a) (.int b) = some (.bool r) := by
  unfold comparisonOp at h
  split_ifs at h with h1 h2 h3 h4 h5 h6
  · rw [h1, ← Except.ok.inj h]
    refine ⟨.eq, isOp_eq, fun E a b => ⟨a == b, ?_, rfl⟩⟩
    simp only [Engine.apply, order_int, Option.map_some, Value.truth_ofTruth]
    grind
  · rw [h2, ← Except.ok.inj h]
    refine ⟨.ne, isOp_ne, fun E a b => ⟨!(a == b), ?_, rfl⟩⟩
    simp only [Engine.apply, order_int, Option.map_some, Value.truth_ofTruth]
    grind
  · rw [h3, ← Except.ok.inj h]
    refine ⟨.ge, isOp_ge, fun E a b => ⟨decide (b ≤ a), ?_, rfl⟩⟩
    simp only [Engine.apply, order_int, Option.map_some, Value.truth_ofTruth]
    grind
  · rw [h4, ← Except.ok.inj h]
    refine ⟨.le, isOp_le, fun E a b => ⟨decide (a ≤ b), ?_, rfl⟩⟩
    simp only [Engine.apply, order_int, Option.map_some, Value.truth_ofTruth]
    by_cases heq : a = b
    · simp [heq]
    · by_cases hlt : a < b
      · simp only [if_neg heq, if_pos hlt]
        exact congrArg some (decide_eq_true (by omega)).symm
      · simp only [if_neg heq, if_neg hlt]
        exact congrArg some (decide_eq_false (by omega)).symm
  · rw [h5, ← Except.ok.inj h]
    refine ⟨.gt, isOp_gt, fun E a b => ⟨decide (b < a), ?_, rfl⟩⟩
    simp only [Engine.apply, order_int, Option.map_some, Value.truth_ofTruth]
    by_cases heq : a = b
    · simp [heq]
    · by_cases hlt : a < b
      · simp only [if_neg heq, if_pos hlt]
        exact congrArg some (decide_eq_false (by omega)).symm
      · simp only [if_neg heq, if_neg hlt]
        exact congrArg some (decide_eq_true (by omega)).symm
  · rw [h6, ← Except.ok.inj h]
    refine ⟨.lt, isOp_lt, fun E a b => ⟨decide (a < b), ?_, rfl⟩⟩
    simp only [Engine.apply, order_int, Option.map_some, Value.truth_ofTruth]
    grind

theorem comparisonOp_eq {func : String} (h : comparisonOp func = .ok "=") : func = "_==_" := by
  unfold comparisonOp at h
  split_ifs at h with h1 h2 h3 h4 h5 h6
  · exact h1
  all_goals exact absurd (Except.ok.inj h) (by decide)

theorem comparisonOp_ne {func : String} (h : comparisonOp func = .ok "<>") : func = "_!=_" := by
  unfold comparisonOp at h
  split_ifs at h with h1 h2 h3 h4 h5 h6
  · exact absurd (Except.ok.inj h) (by decide)
  · exact h2
  all_goals exact absurd (Except.ok.inj h) (by decide)

theorem same_comm (x y : Val) : x.same y = y.same x := by
  cases x <;> cases y <;> simp [Val.same, Bool.beq_comm]

theorem mem_comparisons {func : String} (h : func ∈ comparisons) : func = "_==_" ∨ func = "_!=_" ∨
    func = "_>=_" ∨ func = "_<=_" ∨ func = "_>_" ∨ func = "_<_" := by
  simpa [comparisons] using h

/-- A mirrored comparison says of two numbers what the comparison says of them swapped. -/
theorem operator_mirror_int {func : String} (h : func ∈ comparisons) (a b : ℤ) :
    Val.operator (mirrorComparison func) (.int a) (.int b) =
      Val.operator func (.int b) (.int a) := by
  obtain rfl | rfl | rfl | rfl | rfl | rfl := mem_comparisons h
  · exact congrArg (fun r => some (Val.bool r)) (same_comm (.int a) (.int b))
  · exact congrArg (fun r => some (Val.bool !r)) (same_comm (.int a) (.int b))
  all_goals rfl

theorem mirror_eq {func : String} (h : mirrorComparison func = "_==_") : func = "_==_" := by
  unfold mirrorComparison at h
  split_ifs at h
  all_goals first | exact h | exact absurd h (by decide)

theorem mirror_ne {func : String} (h : mirrorComparison func = "_!=_") : func = "_!=_" := by
  unfold mirrorComparison at h
  split_ifs at h
  all_goals first | exact h | exact absurd h (by decide)

/-- Equality and its negation read the same from either side. -/
theorem operator_same (onRight : Bool) {func : String} (neg : Bool)
    (h : (if onRight then mirrorComparison func else func) = if neg then "_!=_" else "_==_")
    (x y : Val) :
    Val.operator func x y = some (.bool (x.same y ^^ neg)) := by
  have hfunc : func = if neg then "_!=_" else "_==_" := by
    cases onRight with
    | false => exact h
    | true =>
      cases neg with
      | false => exact mirror_eq h
      | true => exact mirror_ne h
  rw [hfunc]
  cases neg with
  | false => simp [Val.operator]
  | true => simp [Val.operator]

/-! ## Keyword scores -/

theorem eqIgnoreAsciiCase_iff (a b : String) :
    eqIgnoreAsciiCase a b = true ↔ lowered a = lowered b := by
  rw [eqIgnoreAsciiCase, beq_iff_eq, lowered_eq]

/-- Of the keywords that differ in case only, one is kept. -/
theorem distinctKeywords_nodup {kept : List String} (h : (kept.map lowered).Nodup)
    (ks : List String) : ((distinctKeywords kept ks).map lowered).Nodup := by
  induction ks generalizing kept with
  | nil => exact h
  | cons k ks ih =>
    rw [distinctKeywords]
    split_ifs with hk
    · exact ih h
    · apply ih
      rw [List.map_append, List.nodup_append]
      refine ⟨h, List.nodup_singleton _, fun a ha b hb hab => hk ?_⟩
      obtain ⟨old, hold, rfl⟩ := List.mem_map.mp ha
      rw [List.map_singleton, List.mem_singleton] at hb
      exact List.any_eq_true.mpr ⟨old, hold, (eqIgnoreAsciiCase_iff _ _).mpr (hab.trans hb)⟩

theorem mem_distinctKeywords (kept ks : List String) (x : String) :
    x ∈ (distinctKeywords kept ks).map lowered ↔ x ∈ (kept ++ ks).map lowered := by
  induction ks generalizing kept with
  | nil => rw [distinctKeywords, List.append_nil]
  | cons k ks ih =>
    rw [distinctKeywords, ih]
    split_ifs with hk
    · obtain ⟨old, hold, heq⟩ := List.any_eq_true.mp hk
      have hlow := (eqIgnoreAsciiCase_iff _ _).mp heq
      have hmem : lowered k ∈ kept.map lowered := hlow ▸ List.mem_map_of_mem hold
      rw [List.map_append, List.map_append, List.mem_append, List.mem_append, List.map_cons,
        List.mem_cons]
      constructor
      · exact fun h => h.imp id Or.inr
      · intro h
        obtain h | rfl | h := h
        · exact Or.inl h
        · exact Or.inl hmem
        · exact Or.inr h
    · rw [List.append_assoc, List.singleton_append]

section

variable (c : Shelves) (isMatch : String → String → Bool) (en : Entry)

theorem hit_congr {k k' : String} (h : lowered k = lowered k') : hit c en k = hit c en k' := by
  rw [hit, hit, h, Like.occurs, Like.occurs, lowered_eq.mp h]

theorem score_distinct (ks : List String) :
    (distinctKeywords [] ks).countP (hit c en) = score c en ks := by
  have hnodup := distinctKeywords_nodup (by simp : (([] : List String).map lowered).Nodup) ks
  have hfilter : (((distinctKeywords [] ks).filter (hit c en)).map lowered).Nodup :=
    hnodup.sublist (List.filter_sublist.map lowered)
  have hmem : ∀ x, x ∈ ((distinctKeywords [] ks).filter (hit c en)).map lowered ↔
      x ∈ ((ks.filter (hit c en)).map lowered).dedup := by
    have hone : ∀ as bs : List String, (∀ x, x ∈ as.map lowered → x ∈ bs.map lowered) →
        ∀ x, x ∈ (as.filter (hit c en)).map lowered → x ∈ (bs.filter (hit c en)).map lowered := by
      intro as bs h x hx
      obtain ⟨k, hk, rfl⟩ := List.mem_map.mp hx
      obtain ⟨hk, hh⟩ := List.mem_filter.mp hk
      obtain ⟨k', hk', heq⟩ := List.mem_map.mp (h _ (List.mem_map_of_mem hk))
      rw [← heq]
      exact List.mem_map_of_mem (List.mem_filter.mpr ⟨hk', (hit_congr c en heq).trans hh⟩)
    intro x
    rw [List.mem_dedup]
    constructor
    · exact hone _ _ (fun y hy => by simpa using (mem_distinctKeywords [] ks y).mp hy) x
    · exact hone _ _ (fun y hy => (mem_distinctKeywords [] ks y).mpr (by simpa using hy)) x
  have hperm := (List.perm_ext_iff_of_nodup hfilter (List.nodup_dedup _)).mpr hmem
  rw [score, ← hperm.length_eq, List.length_map, List.countP_eq_length_filter]

theorem meanings_strings (vs : List String) :
    meanings c isMatch en (vs.map fun s => .literal (.string s)) = some (vs.map .text) := by
  induction vs with
  | nil => rfl
  | cons v vs ih => rw [List.map_cons, meanings, ih, Expr.meaning]; rfl

theorem meanings_ints (vs : List ℤ) :
    meanings c isMatch en (vs.map fun i => .literal (.int i)) = some (vs.map .int) := by
  induction vs with
  | nil => rfl
  | cons v vs ih => rw [List.map_cons, meanings, ih, Expr.meaning]; rfl

theorem mapM_asText (vs : List String) : (vs.map Val.text).mapM Val.asText = some vs := by
  induction vs with
  | nil => rfl
  | cons v vs ih =>
    rw [List.map_cons, List.mapM_cons, ih]
    rfl

theorem meaning_score (vs : List String) :
    (Expr.call none "keyword_score" [.list (vs.map fun s => .literal (.string s))]).meaning
      c isMatch en = some (.int (score c en vs)) := by
  rw [Expr.meaning, Expr.meaning, meanings_strings]
  simp only [Option.map_some, Option.bind_some, Val.unary, if_pos, mapM_asText]

/-- The clause of a keyword score compares the score. -/
theorem keywordScoreComparison_means {func : String} {args : List Expr} {threshold : Expr}
    {w : WhereClause} (h : keywordScoreComparison func args threshold = .ok w) :
    ∃ vs n op o r, args = [.list (vs.map fun s => .literal (.string s))] ∧
      threshold = .literal (.int n) ∧ comparisonOp func = .ok op ∧ IsOp op o ∧
      Means (c.engine isMatch) (scopeOf en) w r ∧
      Val.operator func (.int (score c en vs)) (.int n) = some (.bool r) := by
  unfold keywordScoreComparison at h
  split at h
  · rename_i elements
    obtain ⟨texts, htexts, h⟩ := Lib.bind_eq_ok.mp h
    simp only at h
    split_ifs at h with hempty
    · cases h
    obtain ⟨n, hn, h⟩ := Lib.bind_eq_ok.mp h
    obtain ⟨op, hop, h⟩ := Lib.bind_eq_ok.mp h
    split_ifs at h with hun
    · cases h
    obtain ⟨o, hisOp, hint⟩ := comparisonOp_int hop
    obtain ⟨r, hr, hval⟩ := hint (c.engine isMatch) (score c en texts) n
    refine ⟨texts, n, op, o, r, ?_, literalInt_eq.mp hn, hop, hisOp, ?_, hval⟩
    · rw [mapM_literalText htexts]
    · obtain ⟨k, ks, hks⟩ := List.exists_cons_of_ne_nil hempty
      have hcount := score_distinct c en texts
      rw [hks] at h hcount
      have hpiece : Piece (c.engine isMatch) (scopeOf en) _ _ _ := piece_score k ks
      rw [hcount] at hpiece
      have hmeans := hpiece.compare hisOp hr
      rw [← Except.ok.inj h]
      have hsql : ∀ f : String,
          "(" ++ f ++ ")" ++ " " ++ op ++ " ?" = "(" ++ f ++ ") " ++ op ++ " ?" := by
        intro f
        rw [show ") " = ")" ++ " " from rfl]
        simp only [String.append_assoc]
      rw [hsql] at hmeans
      exact hmeans
  · cases h
  · cases h

/-! ## Fields -/

variable {c isMatch en}

theorem fieldVal_str {name : String} {f : ScalarField}
    (h : FieldKind.resolve name = some (.str f)) {s : Option String} (hs : f.value en = .str s) :
    fieldVal c en name = some (.text (s.getD "")) := by
  simp only [fieldVal, h, hs]

theorem fieldVal_num {name : String} {f : ScalarField}
    (h : FieldKind.resolve name = some (.num f)) {i : ℤ} (hi : f.value en = .num (some i)) :
    fieldVal c en name = some (.int i) := by
  simp only [fieldVal, h, hi, Option.map_some]

/-- A numeric column the expression reads holds a number. -/
theorem number_set {name : String} {f : ScalarField} (h : FieldKind.resolve name = some (.num f))
    {fields : List String} (hmem : name ∈ fields)
    (hset : ∀ f : ScalarField, f.kind = .num → f.name ∈ fields → f.value en ≠ .num none) :
    ∃ i, f.value en = .num (some i) := by
  obtain ⟨hname, hkind⟩ := resolve_num h
  obtain ⟨o, ho⟩ := value_num hkind en
  cases o with
  | some i => exact ⟨i, ho⟩
  | none => exact absurd ho (hset f hkind (hname ▸ hmem))

theorem fieldVal_isSome {name : String} {kind : FieldKind} (h : FieldKind.resolve name = some kind)
    {fields : List String} (hmem : name ∈ fields)
    (hset : ∀ f : ScalarField, f.kind = .num → f.name ∈ fields → f.value en ≠ .num none) :
    ∃ x, fieldVal c en name = some x := by
  cases kind with
  | str f =>
    obtain ⟨s, hs⟩ := value_str (resolve_str h).2 en
    exact ⟨_, fieldVal_str h hs⟩
  | num f =>
    obtain ⟨i, hi⟩ := number_set h hmem hset
    exact ⟨_, fieldVal_num h hi⟩
  | tag ns => exact ⟨.many (tagValues c en ns), by simp only [fieldVal, h]⟩
  | source => exact ⟨.many ((sourcesOf c en).map (·.source.asStr)), by simp only [fieldVal, h]⟩
  | collection => exact ⟨.many (collectionNames c en), by simp only [fieldVal, h]⟩
  | fsDir =>
    exact ⟨.many ((sourcesOf c en).filterMap fun r => parentDir r.playbackPath), by
      simp only [fieldVal, h]⟩

theorem fieldAndLiteral_eq {lhs rhs lit : Expr} {name : String} {onRight : Bool}
    (h : fieldAndLiteral lhs rhs = .ok (name, lit, onRight)) :
    if onRight then rhs = .select (.ident "item") name ∧ lit = lhs
    else lhs = .select (.ident "item") name ∧ lit = rhs := by
  unfold fieldAndLiteral at h
  split at h
  · rename_i field hf
    cases h
    exact ⟨fieldOf_eq hf, rfl⟩
  · split at h
    · rename_i field hf
      cases h
      exact ⟨fieldOf_eq hf, rfl⟩
    · cases h

/-- Equality of a field and a literal and its negation, whichever side the field is on. -/
theorem operator_either {onRight : Bool} {func : String} (neg : Bool)
    (h : (if onRight then mirrorComparison func else func) = if neg then "_!=_" else "_==_")
    (x y : Val) :
    (if onRight then Val.operator func y x else Val.operator func x y) =
      some (.bool (x.same y ^^ neg)) := by
  rw [operator_same onRight neg h, operator_same onRight neg h, same_comm y x, ite_self]

theorem comparison_sides {lhs rhs lit : Expr} {name func : String} {onRight : Bool}
    (h : fieldAndLiteral lhs rhs = .ok (name, lit, onRight)) {x y : Val} {r : Bool}
    (hx : fieldVal c en name = some x) (hy : lit.meaning c isMatch en = some y)
    (hr : (if onRight then Val.operator func y x else Val.operator func x y) = some (.bool r)) :
    ((lhs.meaning c isMatch en).bind fun x => (rhs.meaning c isMatch en).bind fun y =>
      x.operator func y) = some (.bool r) := by
  have hsides := fieldAndLiteral_eq h
  cases onRight with
  | false =>
    obtain ⟨hl, hlit⟩ := hsides
    rw [hl, meaning_item, hx, ← hlit, hy]
    exact hr
  | true =>
    obtain ⟨hl, hlit⟩ := hsides
    rw [hl, meaning_item, hx, ← hlit, hy]
    exact hr

theorem keywordScoreCall_eq {e : Expr} {args : List Expr} (h : keywordScoreCall e = some args) :
    e = .call none "keyword_score" args := by
  unfold keywordScoreCall at h
  split at h
  · split_ifs at h with hf
    rw [hf, Option.some.inj h]
  · cases h

theorem literal_of_fieldAndLiteral {lhs rhs lit : Expr} {name : String} {onRight : Bool}
    (h : fieldAndLiteral lhs rhs = .ok (name, lit, onRight)) :
    name ∈ lhs.fields ++ rhs.fields := by
  have hsides := fieldAndLiteral_eq h
  cases onRight with
  | false =>
    rw [hsides.1, Expr.fields]
    exact List.mem_append_left _ (List.mem_singleton.mpr rfl)
  | true =>
    rw [hsides.1, Expr.fields]
    exact List.mem_append_right _ (List.mem_singleton.mpr rfl)

section
variable {func op name v sql : String} {lhs rhs lit : Expr} {onRight : Bool}

theorem textComparison_means {f : ScalarField}
    (hfl : fieldAndLiteral lhs rhs = .ok (name, lit, onRight))
    (hres : FieldKind.resolve name = some (.str f))
    (hop : comparisonOp (if onRight then mirrorComparison func else func) = .ok op)
    (hop' : ¬ (op ≠ "=" ∧ op ≠ "<>")) (hv : literalText lit = .ok v) :
    ∃ r, Means (c.engine isMatch) (scopeOf en) ⟨textColumn f ++ " " ++ op ++ " ?", [.text v]⟩ r ∧
      ((lhs.meaning c isMatch en).bind fun x => (rhs.meaning c isMatch en).bind fun y =>
        x.operator func y) = some (.bool r) := by
  obtain ⟨s, hs⟩ := value_str (resolve_str hres).2 en
  have hpiece : Piece (c.engine isMatch) (scopeOf en) (textColumn f) [] (.text (s.getD "")) :=
    piece_textColumn hs
  have hx : fieldVal c en name = some (.text (s.getD "")) := fieldVal_str hres hs
  have hy : lit.meaning c isMatch en = some (.text v) := by
    rw [literalText_eq.mp hv, meaning_text]
  by_cases heq : op = "="
  · rw [heq] at hop ⊢
    refine ⟨s.getD "" == v, hpiece.compare isOp_eq (by simp), comparison_sides hfl hx hy ?_⟩
    rw [operator_either false (comparisonOp_eq hop), Bool.xor_false, Val.same]
  · have hne : op = "<>" := by
      by_contra hne
      exact hop' ⟨heq, hne⟩
    rw [hne] at hop ⊢
    refine ⟨!(s.getD "" == v), hpiece.compare isOp_ne (by simp), comparison_sides hfl hx hy ?_⟩
    rw [operator_either true (comparisonOp_ne hop), Bool.xor_true, Val.same]

theorem numberComparison_means (hf : func ∈ comparisons) {f : ScalarField} {i n : ℤ}
    (hfl : fieldAndLiteral lhs rhs = .ok (name, lit, onRight))
    (hres : FieldKind.resolve name = some (.num f)) (hi : f.value en = .num (some i))
    (hop : comparisonOp (if onRight then mirrorComparison func else func) = .ok op)
    (hn : literalInt lit = .ok n) :
    ∃ r, Means (c.engine isMatch) (scopeOf en)
        ⟨"entries." ++ f.name ++ " " ++ op ++ " ?", [.int n]⟩ r ∧
      ((lhs.meaning c isMatch en).bind fun x => (rhs.meaning c isMatch en).bind fun y =>
        x.operator func y) = some (.bool r) := by
  have hy : lit.meaning c isMatch en = some (.int n) := by
    rw [literalInt_eq.mp hn, meaning_int]
  obtain ⟨o, hisOp, hint⟩ := comparisonOp_int hop
  obtain ⟨r, hr, hval⟩ := hint (c.engine isMatch) i n
  refine ⟨r, (piece_column hi).compare hisOp hr,
    comparison_sides hfl (fieldVal_num hres hi) hy ?_⟩
  cases onRight with
  | false => exact hval
  | true =>
    rw [if_pos rfl] at hval ⊢
    rw [← hval, operator_mirror_int hf]

/-- Of a field with several values: that one of them is the literal. -/
theorem memberComparison_means {values : List String}
    (hfl : fieldAndLiteral lhs rhs = .ok (name, lit, onRight))
    (hx : fieldVal c en name = some (.many values))
    (hop : comparisonOp (if onRight then mirrorComparison func else func) = .ok "=")
    (hv : literalText lit = .ok v)
    (hpiece : Piece (c.engine isMatch) (scopeOf en) sql [.text v] (ofBool (values.contains v))) :
    ∃ r, Means (c.engine isMatch) (scopeOf en) ⟨sql, [.text v]⟩ r ∧
      ((lhs.meaning c isMatch en).bind fun x => (rhs.meaning c isMatch en).bind fun y =>
        x.operator func y) = some (.bool r) := by
  have hy : lit.meaning c isMatch en = some (.text v) := by
    rw [literalText_eq.mp hv, meaning_text]
  refine ⟨_, hpiece.means (Value.truth_ofBool _), comparison_sides hfl hx hy ?_⟩
  rw [operator_either false (comparisonOp_eq hop), Bool.xor_false, Val.same]

end

theorem comparison_means {func : String} (hf : func ∈ comparisons) {lhs rhs : Expr}
    {w : WhereClause} (h : comparison func lhs rhs = .ok w)
    (hset : ∀ f : ScalarField, f.kind = .num → f.name ∈ lhs.fields ++ rhs.fields →
      f.value en ≠ .num none) :
    ∃ r, Means (c.engine isMatch) (scopeOf en) w r ∧
      ((lhs.meaning c isMatch en).bind fun x => (rhs.meaning c isMatch en).bind fun y =>
        x.operator func y) = some (.bool r) := by
  unfold comparison at h
  split at h
  · rename_i args hargs
    obtain ⟨vs, n, op, o, r, rfl, rfl, -, -, hmeans, hval⟩ :=
      keywordScoreComparison_means c isMatch en h
    refine ⟨r, hmeans, ?_⟩
    rw [keywordScoreCall_eq hargs, meaning_score, meaning_int]
    exact hval
  · rename_i args _ hargs
    obtain ⟨vs, n, op, o, r, rfl, rfl, -, -, hmeans, hval⟩ :=
      keywordScoreComparison_means c isMatch en h
    refine ⟨r, hmeans, ?_⟩
    rw [keywordScoreCall_eq hargs, meaning_score, meaning_int]
    rw [operator_mirror_int hf] at hval
    exact hval
  · obtain ⟨⟨name, lit, onRight⟩, hfl, h⟩ := Lib.bind_eq_ok.mp h
    simp only at h
    obtain ⟨kind, hkind, h⟩ := Lib.bind_eq_ok.mp h
    obtain ⟨op, hop, h⟩ := Lib.bind_eq_ok.mp h
    have hres := resolveField_eq hkind
    have hmem := literal_of_fieldAndLiteral hfl
    split at h
    · rename_i f
      split_ifs at h with hbad
      obtain ⟨v, hv, h⟩ := Lib.bind_eq_ok.mp h
      rw [← Except.ok.inj h]
      exact textComparison_means hfl hres hop hbad hv
    · rename_i f
      obtain ⟨n, hn, h⟩ := Lib.bind_eq_ok.mp h
      obtain ⟨i, hi⟩ := number_set hres hmem hset
      rw [← Except.ok.inj h]
      exact numberComparison_means hf hfl hres hi hop hn
    · by_cases hone : (kind = .source ∨ kind = .fsDir) ∧ op = "="
      · rw [if_pos hone] at h
        obtain ⟨v, hv, h⟩ := Lib.bind_eq_ok.mp h
        rw [← Except.ok.inj h]
        obtain ⟨rfl | rfl, rfl⟩ := hone
        · rw [if_pos rfl]
          exact memberComparison_means hfl (by simp only [fieldVal, hres]) hop hv (piece_source v)
        · rw [if_neg (by simp)]
          exact memberComparison_means hfl (by simp only [fieldVal, hres]) hop hv (piece_fsDir v)
      · rw [if_neg hone] at h
        cases h

/-! ## Membership and methods -/

theorem operator_in_nil (x : Val) : Val.operator "@in" x (.list []) = some (.bool false) := by
  cases x <;> rfl

theorem inList_means {lhs rhs : Expr} {w : WhereClause} (h : inList lhs rhs = .ok w)
    (hset : ∀ f : ScalarField, f.kind = .num → f.name ∈ lhs.fields ++ rhs.fields →
      f.value en ≠ .num none) :
    ∃ r, Means (c.engine isMatch) (scopeOf en) w r ∧
      ((lhs.meaning c isMatch en).bind fun x => (rhs.meaning c isMatch en).bind fun y =>
        x.operator "@in" y) = some (.bool r) := by
  unfold inList at h
  obtain ⟨name, hname, h⟩ := Lib.bind_eq_ok.mp h
  obtain ⟨kind, hkind, h⟩ := Lib.bind_eq_ok.mp h
  have hres := resolveField_eq hkind
  have hl := fieldOf_eq hname
  have hmem : name ∈ lhs.fields ++ rhs.fields := by
    rw [hl, Expr.fields]
    exact List.mem_append_left _ (List.mem_singleton.mpr rfl)
  split at h
  · rename_i elements
    split_ifs at h with hempty
    · -- nothing is in an empty list
      obtain ⟨x, hx⟩ := fieldVal_isSome (c := c) hres hmem hset
      rw [← Except.ok.inj h, List.isEmpty_iff.mp hempty, hl, meaning_item, hx, Expr.meaning,
        meanings]
      refine ⟨false, Piece.means (v := .int 0) ⟨[.word "0"], [.word "0"], .lit (.int 0),
        lex_ofList rfl rfl, by decide, rfl, primary_number (by decide) rfl, rfl⟩ rfl,
        operator_in_nil x⟩
    · cases kind with
      | str f =>
        simp only at h
        obtain ⟨vals, hvals, h⟩ := Lib.bind_eq_ok.mp h
        obtain ⟨s, hs⟩ := value_str (resolve_str hres).2 en
        have hpiece : Piece (c.engine isMatch) (scopeOf en) (textColumn f) []
            (.text (s.getD "")) := piece_textColumn hs
        have hel := mapM_literalText hvals
        have hne : vals.map Value.text ≠ [] := by
          intro hnil
          rw [List.map_eq_nil_iff.mp hnil] at hel
          exact hempty (hel ▸ rfl)
        rw [← Except.ok.inj h, hl, meaning_item, fieldVal_str hres hs, hel, Expr.meaning,
          meanings_strings]
        refine ⟨vals.any fun y => s.getD "" == y, hpiece.inList ?_ hne ?_, ?_⟩
        · rw [marks_map, marks_map]
        · rw [memberOf_text, Value.truth_ofBool]
        · simp only [Option.map_some, Option.bind_some]
          rw [show ∀ y ys, Val.operator "@in" (.text y) (.list ys) =
            some (.bool (ys.any (Val.same (.text y)))) from fun _ _ => rfl, List.any_map]
          rfl
      | num f =>
        simp only at h
        obtain ⟨vals, hvals, h⟩ := Lib.bind_eq_ok.mp h
        obtain ⟨i, hi⟩ := number_set hres hmem hset
        have hpiece : Piece (c.engine isMatch) (scopeOf en) ("entries." ++ f.name) [] (.int i) :=
          piece_column hi
        have hel := mapM_literalInt hvals
        have hne : vals.map Value.int ≠ [] := by
          intro hnil
          rw [List.map_eq_nil_iff.mp hnil] at hel
          exact hempty (hel ▸ rfl)
        rw [← Except.ok.inj h, hl, meaning_item, fieldVal_num hres hi, hel, Expr.meaning,
          meanings_ints]
        refine ⟨vals.any fun y => i == y, hpiece.inList ?_ hne ?_, ?_⟩
        · rw [marks_map, marks_map]
        · rw [memberOf_int, Value.truth_ofBool]
        · simp only [Option.map_some, Option.bind_some]
          rw [show ∀ y ys, Val.operator "@in" (.int y) (.list ys) =
            some (.bool (ys.any (Val.same (.int y)))) from fun _ _ => rfl, List.any_map]
          rfl
      | tag ns => cases h
      | source => cases h
      | collection => cases h
      | fsDir => cases h
  · cases h

theorem methodPredicate_means {method : String} {target : Expr} {args : List Expr}
    {w : WhereClause} (h : methodPredicate method target args = .ok w) :
    ∃ r, Means (c.engine isMatch) (scopeOf en) w r ∧
      (Expr.call (some target) method args).meaning c isMatch en = some (.bool r) := by
  unfold methodPredicate at h
  obtain ⟨name, hname, h⟩ := Lib.bind_eq_ok.mp h
  obtain ⟨kind, hkind, h⟩ := Lib.bind_eq_ok.mp h
  have hres := resolveField_eq hkind
  have ht := fieldOf_eq hname
  cases args with
  | nil => cases h
  | cons arg rest =>
    simp only at h
    rw [Expr.meaning, ht, meaning_item]
    split_ifs at h with hcontains hstarts hmatches
    · rw [hcontains]
      cases kind with
      | str f =>
        obtain ⟨v', hv, h⟩ := Lib.bind_eq_ok.mp h
        obtain ⟨v, rfl, rfl⟩ := literalLike_eq hv
        obtain ⟨s, hs⟩ := value_str (resolve_str hres).2 en
        rw [← Except.ok.inj h, fieldVal_str hres hs, meaning_text]
        exact ⟨_, means_contains hs v, rfl⟩
      | tag ns =>
        obtain ⟨v, hv, h⟩ := Lib.bind_eq_ok.mp h
        have hx : fieldVal c en name = some (.many (tagValues c en ns)) := by
          simp only [fieldVal, hres]
        rw [hx, literalText_eq.mp hv, meaning_text]
        cases ns with
        | some ns =>
          rw [← Except.ok.inj h]
          exact ⟨_, (piece_tag_ns ns v).means (Value.truth_ofBool _), rfl⟩
        | none =>
          rw [← Except.ok.inj h]
          exact ⟨_, (piece_tag_any v).means (Value.truth_ofBool _), rfl⟩
      | collection =>
        obtain ⟨v, hv, h⟩ := Lib.bind_eq_ok.mp h
        have hx : fieldVal c en name = some (.many (collectionNames c en)) := by
          simp only [fieldVal, hres]
        rw [← Except.ok.inj h, hx, literalText_eq.mp hv, meaning_text]
        exact ⟨_, (piece_collection v).means (Value.truth_ofBool _), rfl⟩
      | num f => cases h
      | source => cases h
      | fsDir => cases h
    · rw [hstarts]
      cases kind with
      | str f =>
        obtain ⟨v', hv, h⟩ := Lib.bind_eq_ok.mp h
        obtain ⟨v, rfl, rfl⟩ := literalLike_eq hv
        obtain ⟨s, hs⟩ := value_str (resolve_str hres).2 en
        rw [← Except.ok.inj h, fieldVal_str hres hs, meaning_text]
        exact ⟨_, means_startsWith hs v, rfl⟩
      | collection =>
        obtain ⟨v', hv, h⟩ := Lib.bind_eq_ok.mp h
        obtain ⟨v, rfl, rfl⟩ := literalLike_eq hv
        have hx : fieldVal c en name = some (.many (collectionNames c en)) := by
          simp only [fieldVal, hres]
        rw [← Except.ok.inj h, hx, meaning_text]
        exact ⟨_, (piece_collection_like v).means (Value.truth_ofBool _), rfl⟩
      | num f => cases h
      | tag ns => cases h
      | source => cases h
      | fsDir => cases h
    · rw [hmatches]
      cases kind with
      | str f =>
        obtain ⟨v, hv, h⟩ := Lib.bind_eq_ok.mp h
        obtain ⟨s, hs⟩ := value_str (resolve_str hres).2 en
        rw [← Except.ok.inj h, fieldVal_str hres hs, literalText_eq.mp hv, meaning_text]
        exact ⟨_, means_matches hs v, rfl⟩
      | collection =>
        obtain ⟨v, hv, h⟩ := Lib.bind_eq_ok.mp h
        have hx : fieldVal c en name = some (.many (collectionNames c en)) := by
          simp only [fieldVal, hres]
        rw [← Except.ok.inj h, hx, literalText_eq.mp hv, meaning_text]
        exact ⟨_, (piece_collection_regexp v).means (Value.truth_ofBool _), rfl⟩
      | num f => cases h
      | tag ns => cases h
      | source => cases h
      | fsDir => cases h

/-! ## Whole expressions -/

theorem fields_call (func : String) (a b : Expr) (rest : List Expr) (f : String)
    (hf : f ∈ a.fields ++ b.fields) : f ∈ (Expr.call none func (a :: b :: rest)).fields := by
  rw [Expr.fields, fieldsOf, fieldsOf, ← List.append_assoc]
  exact List.mem_append_left _ hf

/-- A binary operator asks its operands. -/
theorem meaning_binary {func : String} (hf : func ≠ "!_") (a b : Expr) (rest : List Expr) :
    (Expr.call none func (a :: b :: rest)).meaning c isMatch en =
      (a.meaning c isMatch en).bind fun x => (b.meaning c isMatch en).bind fun y =>
        x.operator func y := by
  rw [Expr.meaning, if_neg hf]

theorem meaning_not (a : Expr) (rest : List Expr) {r : Bool}
    (ha : a.meaning c isMatch en = some (.bool r)) :
    (Expr.call none "!_" (a :: rest)).meaning c isMatch en = some (.bool !r) := by
  cases rest with
  | nil =>
    rw [Expr.meaning, ha]
    rfl
  | cons b rest =>
    rw [Expr.meaning, if_pos rfl, ha]
    rfl

/-- A clause with clauses inside: each is translated, and the connective joins what they say. -/
theorem operatorPredicate_means {func : String} {args : List Expr} {w : WhereClause}
    (ih : ∀ a ∈ args, ∀ v, predicate a = .ok v → a.NumbersSet en →
      ∃ r, Means (c.engine isMatch) (scopeOf en) v r ∧ a.meaning c isMatch en = some (.bool r))
    (h : operatorPredicate func args = .ok w)
    (hset : (Expr.call none func args).NumbersSet en) :
    ∃ r, Means (c.engine isMatch) (scopeOf en) w r ∧
      (Expr.call none func args).meaning c isMatch en = some (.bool r) := by
  cases args with
  | nil =>
    rw [operatorPredicate] at h
    split_ifs at h
  | cons a rest =>
    have hseta : a.NumbersSet en := by
      intro f hf hmem
      apply hset f hf
      rw [Expr.fields, fieldsOf]
      exact List.mem_append_left _ hmem
    have hnot : ∀ inner, predicate a = .ok inner →
        ∃ r, Means (c.engine isMatch) (scopeOf en) ⟨"(NOT " ++ inner.sql ++ ")", inner.params⟩ r ∧
          (Expr.call none "!_" (a :: rest)).meaning c isMatch en = some (.bool r) := by
      intro inner hinner
      obtain ⟨r, hmeans, hmeaning⟩ := ih a List.mem_cons_self inner hinner hseta
      exact ⟨!r, hmeans.not.means (Value.truth_ofBool _), meaning_not a rest hmeaning⟩
    cases rest with
    | nil =>
      rw [operatorPredicate] at h
      split_ifs at h with hn
      obtain ⟨inner, hinner, h⟩ := Lib.bind_eq_ok.mp h
      rw [← Except.ok.inj h, hn]
      exact hnot inner hinner
    | cons b rest =>
      have hboth : ∀ f : ScalarField, f.kind = .num → f.name ∈ a.fields ++ b.fields →
          f.value en ≠ .num none :=
        fun f hf hmem => hset f hf (fields_call func a b rest f.name hmem)
      rw [operatorPredicate] at h
      by_cases hjoin : func = "_&&_" ∨ func = "_||_"
      · rw [if_pos hjoin] at h
        obtain ⟨left, hleft, h⟩ := Lib.bind_eq_ok.mp h
        obtain ⟨right, hright, h⟩ := Lib.bind_eq_ok.mp h
        have hsetb : b.NumbersSet en :=
          fun f hf hmem => hboth f hf (List.mem_append_right _ hmem)
        obtain ⟨p, hpm, hpv⟩ := ih a List.mem_cons_self left hleft hseta
        obtain ⟨q, hqm, hqv⟩ :=
          ih b (List.mem_cons_of_mem _ List.mem_cons_self) right hright hsetb
        rw [← Except.ok.inj h]
        obtain rfl | rfl := hjoin
        · have hpiece := hpm.paren hqm true
          refine ⟨p && q, hpiece.means (Value.truth_ofBool _), ?_⟩
          rw [meaning_binary (by decide), hpv, hqv]
          rfl
        · have hpiece := hpm.paren hqm false
          rw [if_neg (by decide), if_neg (by decide)] at hpiece
          refine ⟨p || q, hpiece.means (Value.truth_ofBool _), ?_⟩
          rw [meaning_binary (by decide), hpv, hqv]
          rfl
      · rw [if_neg hjoin] at h
        by_cases hn : func = "!_"
        · rw [if_pos hn] at h
          obtain ⟨inner, hinner, h⟩ := Lib.bind_eq_ok.mp h
          rw [← Except.ok.inj h, hn]
          exact hnot inner hinner
        · rw [if_neg hn] at h
          rw [meaning_binary hn]
          split_ifs at h with hcmp hin
          · exact comparison_means hcmp h hboth
          · rw [hin]
            exact inList_means h hboth

theorem predicate_means (n : ℕ) : ∀ e : Expr, sizeOf e < n → ∀ w, predicate e = .ok w →
    e.NumbersSet en → ∃ r, Means (c.engine isMatch) (scopeOf en) w r ∧
      e.meaning c isMatch en = some (.bool r) := by
  induction n with
  | zero => exact fun e he => absurd he (Nat.not_lt_zero _)
  | succ n ih =>
    intro e he w h hset
    cases e with
    | call target func args =>
      cases target with
      | some target =>
        rw [predicate] at h
        exact methodPredicate_means h
      | none =>
        rw [predicate] at h
        apply operatorPredicate_means _ h hset
        intro a ha v hv hseta
        apply ih a _ v hv hseta
        have hsize := List.sizeOf_lt_of_mem ha
        simp only [Expr.call.sizeOf_spec] at he
        omega
    | unspecified => cases h
    | comprehension => cases h
    | ident name => cases h
    | list elements => cases h
    | literal l => cases h
    | map => cases h
    | select operand field => cases h
    | struct => cases h

/-- The tokens of the clause's text are known ones, with a question mark for each parameter. -/
def WhereClause.Parameterised (w : WhereClause) : Prop :=
  ∃ ts, lex w.sql = some ts ∧ (∀ t ∈ ts, t ∈ vocabulary) ∧ ts.count .param = w.params.length

end

def Shelves.select (c : Shelves) (isMatch : String → String → Bool) (w : WhereClause) :
    Option (List Entry) :=
  (prepare w.sql w.params).map fun q => (c.entries.rows.map Prod.snd).filter fun en =>
    (q.eval (c.engine isMatch) (scopeOf en)).truth == some true

theorem Means.prepare {E : Engine} {s : Scope} {w : WhereClause} {r : Bool} (h : Means E s w r) :
    ∃ q, Sql.prepare w.sql w.params = some q ∧ (q.eval E s).truth = some r := by
  obtain ⟨ts, us, e, hlex, -, hbind, hcl, heval⟩ := h
  refine ⟨e, ?_, heval⟩
  rw [Sql.prepare, hlex, Option.bind_some, hbind, Option.bind_some,
    (hcl.operand (by omega)).parse]

theorem Means.parameterised {E : Engine} {s : Scope} {w : WhereClause} {r : Bool}
    (h : Means E s w r) : w.Parameterised := by
  obtain ⟨ts, us, e, hlex, hvoc, hbind, -, -⟩ := h
  exact ⟨ts, hlex, hvoc, (bind_length hbind).symm⟩

def numbered : Entry where
  entryId := ""
  kind := ""
  title := ""
  season := some 0
  episode := some 0
  absoluteEpisode := some 0
  year := some 0
  durationMs := some 0
  primarySource := .plex

theorem numbered_set (e : Expr) : e.NumbersSet numbered := by
  intro f hf _ hv
  cases f <;> first | exact absurd hf (by decide) | cases hv

/-- What `translate` accepts it turns into a well-formed clause: of known tokens only, so that no
literal of the expression is part of the text, with a question mark for each parameter. In every
catalog whose entries have the numeric columns set that the expression reads, the clause selects
exactly the entries the expression is true of. -/
theorem translate_selects {e : Expr} {w : WhereClause} (h : translate e = .ok w) :
    w.Parameterised ∧ ∀ (c : Shelves) (isMatch : String → String → Bool),
      (∀ en ∈ c.entries.rows.map Prod.snd, e.NumbersSet en) →
        c.select isMatch w =
          some ((c.entries.rows.map Prod.snd).filter fun en => e.holds c isMatch en) := by
  have hmeans : ∀ (c : Shelves) (isMatch : String → String → Bool) (en : Entry),
      e.NumbersSet en → ∃ r, Means (c.engine isMatch) (scopeOf en) w r ∧
        e.meaning c isMatch en = some (.bool r) :=
    fun c isMatch en => predicate_means (sizeOf e + 1) e (Nat.lt_succ_self _) w h
  constructor
  · obtain ⟨r, hr, -⟩ := hmeans {} (fun _ _ => true) numbered (numbered_set e)
    exact hr.parameterised
  · intro c isMatch hset
    obtain ⟨r, hr, -⟩ := hmeans c isMatch numbered (numbered_set e)
    obtain ⟨q, hq, -⟩ := hr.prepare
    rw [Shelves.select, hq, Option.map_some, Option.some.injEq]
    apply List.filter_congr
    intro en hen
    obtain ⟨r', hr', hmeaning⟩ := hmeans c isMatch en (hset en hen)
    obtain ⟨q', hq', htruth⟩ := hr'.prepare
    rw [hq, Option.some.injEq] at hq'
    rw [hq', htruth, Expr.holds, hmeaning]
    cases r' <;> rfl

/-- `!(2000 <= item.year) && keyword_score(["gun", "Gun", "west"]) >= 2`. -/
def western : Expr :=
  .call none "_&&_" [
    .call none "!_" [.call none "_<=_" [.literal (.int 2000), .select (.ident "item") "year"]],
    .call none "_>=_" [.call none "keyword_score" [.list [.literal (.string "gun"),
      .literal (.string "Gun"), .literal (.string "west")]], .literal (.int 2)]]

def topGun : Entry where
  entryId := "imdb:1"
  kind := "movie"
  title := "Top Gun"
  year := some 1986
  primarySource := .plex

def oneFilm : Shelves where
  entries := Table.empty.upsert "imdb:1" fun _ => topGun
  tags := [⟨"imdb:1", .genre, "West"⟩]

theorem translate_selects_western : ∃ w, translate western = .ok w ∧
    oneFilm.select (fun _ _ => true) w = some [topGun] := by
  refine ⟨_, rfl, ?_⟩
  have hset : ∀ en ∈ oneFilm.entries.rows.map Prod.snd, western.NumbersSet en := by
    intro en hen f hf hmem
    have htop : en = topGun := List.mem_singleton.mp hen
    rw [htop]
    cases f <;> first | exact absurd hf (by decide) | decide | exact absurd hmem (by decide)
  rw [(translate_selects rfl).2 oneFilm (fun _ _ => true) hset]
  decide

end EtvStation.Query
