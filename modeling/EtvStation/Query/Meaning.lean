import Mathlib.Data.List.Dedup
import EtvStation.Query.Translate

/-! What a query expression says of an entry, read off the expression itself. -/
namespace EtvStation.Query

open Ingest (Entry TagNs)
open Lib
open Lib.Sql (lowered)

inductive Val
  | bool (b : Bool)
  | int (i : ℤ)
  | text (s : String)
  /-- The values of a multi-valued field. -/
  | many (vs : List String)
  | list (vs : List Val)

/-- Equality; a multi-valued field equals a text it holds. -/
def Val.same : Val → Val → Bool
  | .int a, .int b => a == b
  | .text a, .text b => a == b
  | .many vs, .text s => vs.contains s
  | .text s, .many vs => vs.contains s
  | _, _ => false

def Val.operator (func : String) (x y : Val) : Option Val :=
  if func = "_==_" then some (.bool (x.same y))
  else if func = "_!=_" then some (.bool (!x.same y))
  else
    match x, y with
    | .bool a, .bool b =>
      if func = "_&&_" then some (.bool (a && b))
      else if func = "_||_" then some (.bool (a || b))
      else none
    | .int a, .int b =>
      if func = "_>=_" then some (.bool (b ≤ a))
      else if func = "_<=_" then some (.bool (a ≤ b))
      else if func = "_>_" then some (.bool (b < a))
      else if func = "_<_" then some (.bool (a < b))
      else none
    | x, .list ys => if func = "@in" then some (.bool (ys.any x.same)) else none
    | _, _ => none

def Val.asText : Val → Option String
  | .text s => some s
  | _ => none

section

variable (c : Shelves) (isMatch : String → String → Bool) (en : Entry)

/-- `contains` on a field of many values asks for one of them; the other methods ask for one they
hold of. Letter case counts for `matches` and for membership only. -/
def Val.method (m : String) (x y : Val) : Option Val :=
  match x, y with
  | .text t, .text s =>
    if m = "contains" then some (.bool (Like.occurs s.toList t.toList))
    else if m = "startsWith" then some (.bool (Like.opens s.toList t.toList))
    else if m = "matches" then some (.bool (isMatch s t))
    else none
  | .many vs, .text s =>
    if m = "contains" then some (.bool (vs.contains s))
    else if m = "startsWith" then some (.bool (vs.any fun v => Like.opens s.toList v.toList))
    else if m = "matches" then some (.bool (vs.any fun v => isMatch s v))
    else none
  | _, _ => none

def tagValues (ns : Option TagNs) : List String :=
  (c.tags.filter fun t => t.entryId = en.entryId && (ns.isNone || ns = some t.ns)).map (·.value)

def collectionNames : List String :=
  (c.collectionItems.filter fun i => i.entryId = en.entryId).filterMap fun i =>
    c.collections.get i.collectionId

def sourcesOf : List Ingest.EntrySource :=
  (c.sources.rows.map (·.2)).filter fun r => r.entryId = en.entryId

/-- The value of `item.<name>`. An unset text reads as the empty one. -/
def fieldVal (name : String) : Option Val :=
  match FieldKind.resolve name with
  | none => none
  | some (.str f) | some (.num f) =>
    match f.value en with
    | .str s => some (.text (s.getD ""))
    | .num i => i.map .int
  | some (.tag ns) => some (.many (tagValues c en ns))
  | some .source => some (.many ((sourcesOf c en).map (·.source.asStr)))
  | some .collection => some (.many (collectionNames c en))
  | some .fsDir => some (.many ((sourcesOf c en).filterMap fun r => parentDir r.playbackPath))

/-- A keyword occurs in the title or is one of the tags, case ignored. -/
def hit (k : String) : Bool :=
  Like.occurs k.toList en.title.toList ||
    (tagValues c en none).any fun v => lowered v == lowered k

/-- How many of the keywords hit, those that differ in case only counted once. -/
def score (keywords : List String) : ℕ := ((keywords.filter (hit c en)).map lowered).dedup.length

def Val.unary (func : String) (x : Val) : Option Val :=
  match x with
  | .bool b => if func = "!_" then some (.bool (!b)) else none
  | .list vs =>
    if func = "keyword_score" then
      (vs.mapM Val.asText).map fun keywords => .int (score c en keywords)
    else none
  | _ => none

mutual

def Expr.meaning : Expr → Option Val
  | .literal (.string s) => some (.text s)
  | .literal (.int i) => some (.int i)
  | .list es => (meanings es).map .list
  | .select (.ident root) field => if root = "item" then fieldVal c en field else none
  | .call none func [a] => a.meaning.bind fun x => x.unary c en func
  | .call none func (a :: b :: _) =>
    if func = "!_" then a.meaning.bind fun x => x.unary c en func
    else a.meaning.bind fun x => b.meaning.bind fun y => x.operator func y
  | .call (some target) m (a :: _) =>
    target.meaning.bind fun x => a.meaning.bind fun y => x.method isMatch m y
  | _ => none

def meanings : List Expr → Option (List Val)
  | [] => some []
  | e :: es => e.meaning.bind fun x => (meanings es).map (x :: ·)

end

section Leaves

attribute [local simp] Expr.meaning

variable {c isMatch en}

theorem meaning_item (name : String) :
    (Expr.select (.ident "item") name).meaning c isMatch en = fieldVal c en name := by
  simp

theorem meaning_text (v : String) :
    (Expr.literal (.string v)).meaning c isMatch en = some (.text v) := by
  simp

theorem meaning_int (i : ℤ) : (Expr.literal (.int i)).meaning c isMatch en = some (.int i) := by
  simp

end Leaves

/-- The expression is true of the entry. -/
def Expr.holds (e : Expr) : Bool :=
  match e.meaning c isMatch en with
  | some (.bool b) => b
  | _ => false

end

mutual

def Expr.fields : Expr → List String
  | .select (.ident _) field => [field]
  | .select operand _ => operand.fields
  | .call none _ args => fieldsOf args
  | .call (some target) _ args => target.fields ++ fieldsOf args
  | .list es => fieldsOf es
  | _ => []

def fieldsOf : List Expr → List String
  | [] => []
  | e :: es => e.fields ++ fieldsOf es

end

/-- Every numeric column the expression reads is set on the entry. -/
def Expr.NumbersSet (e : Expr) (en : Entry) : Prop :=
  ∀ f : ScalarField, f.kind = .num → f.name ∈ e.fields → f.value en ≠ .num none

end EtvStation.Query
