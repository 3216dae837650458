import EtvStation.Lib.Like
import EtvStation.Lib.Sql.Grammar

/-! What a `WHERE` clause says of a row: its value under three-valued logic, and the rows a
statement selects, which are those where the value is true. -/
namespace EtvStation.Lib.Sql

namespace Value

/-- `none` is unknown. No text is asked for its truth by the expressions read here. -/
def truth : Value → Option Bool
  | null => none
  | int i => some (i ≠ 0)
  | text _ => none

def ofBool (b : Bool) : Value := int (if b then 1 else 0)

def ofTruth : Option Bool → Value
  | none => null
  | some b => ofBool b

@[simp] theorem truth_ofBool (b : Bool) : (ofBool b).truth = some b := by
  cases b <;> rfl

@[simp] theorem truth_ofTruth (t : Option Bool) : (ofTruth t).truth = t := by
  cases t with
  | none => rfl
  | some b => exact truth_ofBool b

def asText : Value → Option String
  | null => none
  | int i => some (toString i)
  | text s => some s

/-- Numbers come before texts. -/
def order : Value → Value → Option Ordering
  | int a, int b => some (if a = b then .eq else if a < b then .lt else .gt)
  | text a, text b => some (if a = b then .eq else if a < b then .lt else .gt)
  | int _, text _ => some .lt
  | text _, int _ => some .gt
  | null, _ => none
  | _, null => none

def coalesce : List Value → Value
  | [] => null
  | null :: vs => coalesce vs
  | v :: _ => v

end Value

open Value

def and3 : Option Bool → Option Bool → Option Bool
  | some a, some b => some (a && b)
  | some false, none => some false
  | none, some false => some false
  | _, _ => none

def or3 : Option Bool → Option Bool → Option Bool
  | some a, some b => some (a || b)
  | some true, none => some true
  | none, some true => some true
  | _, _ => none

/-- ASCII letters to lower case. -/
def lowered (s : String) : String := String.ofList (s.toList.map Char.toLower)

theorem toList_lowered (s : String) : (lowered s).toList = s.toList.map Char.toLower :=
  String.toList_ofList

theorem lowered_eq {a b : String} :
    lowered a = lowered b ↔ a.toList.map Char.toLower = b.toList.map Char.toLower := by
  rw [← toList_lowered, ← toList_lowered, String.toList_inj]

/-- `text LIKE pattern ESCAPE esc`. -/
def likeValue (t pattern esc : Value) : Value :=
  match t.asText, pattern.asText, esc.asText.map String.toList with
  | some t, some p, some [c] => ofBool (Like.holds c p.toList t.toList)
  | _, _, _ => null

/-- `x IN (…)`. -/
def memberOf (x : Value) (xs : List Value) : Value :=
  if xs.any fun y => order x y == some .eq then ofBool true
  else if x = null ∨ null ∈ xs then null
  else ofBool false

theorem memberOf_int (x : ℤ) (xs : List ℤ) :
    memberOf (.int x) (xs.map .int) = ofBool (xs.any fun y => x == y) := by
  have horder : ∀ y : ℤ, (order (.int x) (.int y) == some .eq) = (x == y) := by
    intro y
    by_cases h : x = y
    · simp [order, h]
    · by_cases hlt : x < y <;> simp [order, h, hlt]
  have hnull : null ∉ xs.map Value.int := by simp
  rw [memberOf, List.any_map]
  simp only [Function.comp_def, horder]
  cases xs.any fun y => x == y with
  | true => rfl
  | false => rw [if_neg (by decide), if_neg (by simp [hnull])]

theorem memberOf_text (x : String) (xs : List String) :
    memberOf (.text x) (xs.map .text) = ofBool (xs.any fun y => x == y) := by
  have horder : ∀ y : String, (order (.text x) (.text y) == some .eq) = (x == y) := by
    intro y
    by_cases h : x = y
    · simp [order, h]
    · by_cases hlt : x < y <;> simp [order, h, hlt]
  have hnull : null ∉ xs.map Value.text := by simp
  rw [memberOf, List.any_map]
  simp only [Function.comp_def, horder]
  cases xs.any fun y => x == y with
  | true => rfl
  | false => rw [if_neg (by decide), if_neg (by simp [hnull])]

/-- The tables a statement reads and the functions its connection registers. -/
structure Engine where
  rows : String → List (String → Value)
  function : String → List Value → Value

namespace Engine

def call (E : Engine) (f : String) (args : List Value) : Value :=
  if f = "COALESCE" then coalesce args
  else if f = "lower" then
    match args with
    | [v] => (v.asText.map fun s => text (lowered s)).getD null
    | _ => null
  else E.function f args

def apply (E : Engine) (o : Op) (l r : Value) : Value :=
  match o with
  | .or => ofTruth (or3 l.truth r.truth)
  | .and => ofTruth (and3 l.truth r.truth)
  | .eq => ofTruth ((order l r).map (· == .eq))
  | .ne => ofTruth ((order l r).map (· != .eq))
  | .lt => ofTruth ((order l r).map (· == .lt))
  | .le => ofTruth ((order l r).map (· != .gt))
  | .gt => ofTruth ((order l r).map (· == .gt))
  | .ge => ofTruth ((order l r).map (· != .lt))
  | .add =>
    match l, r with
    | .int a, .int b => .int (a + b)
    | _, _ => null
  | .cat =>
    match l.asText, r.asText with
    | some a, some b => text (a ++ b)
    | _, _ => null
  -- `X REGEXP Y` calls `regexp(Y, X)`
  | .regexp => E.function "regexp" [r, l]

@[simp] theorem apply_and (E : Engine) (a b : Bool) :
    E.apply .and (ofBool a) (ofBool b) = ofBool (a && b) := by
  cases a <;> cases b <;> rfl

@[simp] theorem apply_or (E : Engine) (a b : Bool) :
    E.apply .or (ofBool a) (ofBool b) = ofBool (a || b) := by
  cases a <;> cases b <;> rfl

/-- Nothing equals null, and no conjunction with null is true. -/
@[simp] theorem apply_eq_null (E : Engine) (v : Value) : E.apply .eq null v = null := by
  cases v <;> rfl

@[simp] theorem apply_and_null (E : Engine) (v : Value) :
    ((E.apply .and v null).truth == some true) = false := by
  simp only [apply, truth_ofTruth]
  cases v.truth with
  | none => rfl
  | some b => cases b <;> rfl

@[simp] theorem apply_cat (E : Engine) (a b : String) :
    E.apply .cat (text a) (text b) = text (a ++ b) := rfl

private theorem beq_ordering {p q : Prop} [Decidable p] [Decidable q] :
    ((if p then Ordering.eq else if q then .lt else .gt) == .eq) = decide p := by
  by_cases hp : p
  · rw [if_pos hp, decide_eq_true hp]
    rfl
  · rw [if_neg hp, decide_eq_false hp]
    by_cases hq : q
    · rw [if_pos hq]
      rfl
    · rw [if_neg hq]
      rfl

@[simp] theorem apply_eq_text (E : Engine) (a b : String) :
    E.apply .eq (text a) (text b) = ofBool (a == b) := by
  simp only [apply, order, Option.map_some, ofTruth, beq_ordering]
  rfl

@[simp] theorem apply_ne_text (E : Engine) (a b : String) :
    E.apply .ne (text a) (text b) = ofBool (!(a == b)) := by
  simp only [apply, order, Option.map_some, ofTruth, bne, beq_ordering]
  rfl

end Engine

/-- The row each alias stands for. A name that stands for nothing reads as null. -/
abbrev Scope := List (String × (String → Value))

def Engine.combos (E : Engine) : List (String × String) → List Scope
  | [] => [[]]
  | t :: ts => (E.rows t.1).flatMap fun r => (E.combos ts).map ((t.2, r) :: ·)

mutual

def Ast.eval (E : Engine) : Ast → Scope → Value
  | .lit v, _ => v
  | .col t c, s => ((s.lookup t).map (· c)).getD null
  | .not e, s => ofTruth ((e.eval E s).truth.map (!·))
  | .bin o l r, s => E.apply o (l.eval E s) (r.eval E s)
  | .like e p esc, s => likeValue (e.eval E s) (p.eval E s) (esc.eval E s)
  | .inList e es, s => memberOf (e.eval E s) (evals E es s)
  | .call f args, s => E.call f (evals E args s)
  | .ite c a b, s => if (c.eval E s).truth = some true then a.eval E s else b.eval E s
  | .anyRow ts conds, s =>
    ofBool ((E.combos ts).any fun rows =>
      (evals E conds (rows ++ s)).all fun v => v.truth == some true)

def evals (E : Engine) : List Ast → Scope → List Value
  | [], _ => []
  | e :: es, s => e.eval E s :: evals E es s

end

theorem eval_ite {E : Engine} {s : Scope} {c a b : Ast} {t : Bool}
    (hc : (c.eval E s).truth = some t) :
    (Ast.ite c a b).eval E s = if t then a.eval E s else b.eval E s := by
  rw [Ast.eval, hc]
  cases t <;> rfl

/-- Read a statement's text and bind its parameters. -/
def prepare (sql : String) (params : List Value) : Option Ast :=
  (lex sql).bind fun ts => (bind ts params).bind parse

/-- Whether the clause is true of the row in scope, when it is well formed. -/
def selects (E : Engine) (sql : String) (params : List Value) (s : Scope) : Option Bool :=
  (prepare sql params).map fun e => (e.eval E s).truth == some true

end EtvStation.Lib.Sql
