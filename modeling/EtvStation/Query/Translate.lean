import EtvStation.Query.Fields

/-! A CEL expression becomes a `WHERE` clause: its text, with a question mark for every value, and
the values in the order of the question marks. -/
namespace EtvStation.Query

open Lib.Sql (Value)
open Ingest (TagNs)

inductive Literal
  | string (s : String)
  | int (i : ℤ)
  | other
  deriving DecidableEq, Repr

/-- A parsed CEL expression. What a comprehension, a map or a struct holds is never read. -/
inductive Expr
  | unspecified
  | call (target : Option Expr) (func : String) (args : List Expr)
  | comprehension
  | ident (name : String)
  | list (elements : List Expr)
  | literal (l : Literal)
  | map
  | select (operand : Expr) (field : String)
  | struct

structure WhereClause where
  sql : String
  params : List Value

def describe : Expr → String
  | .unspecified => "an empty expression"
  | .call .. => "a call"
  | .comprehension => "a comprehension"
  | .ident _ => "an identifier"
  | .list _ => "a list"
  | .literal _ => "a literal"
  | .map => "a map"
  | .select .. => "a field selection"
  | .struct => "a struct"

def literalText : Expr → Except String String
  | .literal (.string s) => .ok s
  | other => .error ("expected a string literal, found " ++ describe other)

def literalInt : Expr → Except String ℤ
  | .literal (.int i) => .ok i
  | other => .error ("expected an integer literal, found " ++ describe other)

/-- `str::replace` of one character. -/
def replace (c : Char) (by' : List Char) (s : List Char) : List Char :=
  s.flatMap fun x => if x = c then by' else [x]

def likeEscape (s : String) : String :=
  String.ofList (replace '_' ['\\', '_'] (replace '%' ['\\', '%']
    (replace '\\' ['\\', '\\'] s.toList)))

/-- A text literal that matches itself in a `LIKE … ESCAPE '\'` pattern. -/
def literalLike (node : Expr) : Except String String := (literalText node).map likeEscape

def fieldOf : Expr → Except String String
  | .select (.ident root) field =>
    if root = "item" then .ok field
    else .error "query fields must be accessed as item.<field>"
  | _ => .error "query fields must be accessed as item.<field>"

def mirrorComparison (func : String) : String :=
  if func = "_>=_" then "_<=_"
  else if func = "_<=_" then "_>=_"
  else if func = "_>_" then "_<_"
  else if func = "_<_" then "_>_"
  else func

/-- The field of a comparison, its other operand, and whether the field was on the right. -/
def fieldAndLiteral (lhs rhs : Expr) : Except String (String × Expr × Bool) :=
  match fieldOf lhs with
  | .ok field => .ok (field, rhs, false)
  | .error lhsErr =>
    match fieldOf rhs with
    | .ok field => .ok (field, lhs, true)
    | .error _ => .error lhsErr

def resolveField (name : String) : Except String FieldKind :=
  match FieldKind.resolve name with
  | some kind => .ok kind
  | none => .error ("unknown query field item." ++ name)

def tagExists (ns : Option TagNs) (value : Expr) : Except String WhereClause := do
  let val ← literalText value
  match ns with
  | some ns =>
    .ok ⟨"EXISTS (SELECT 1 FROM tags t WHERE t.entry_id = entries.entry_id AND t.namespace = ? AND t.value = ?)",
      [.text ns.asStr, .text val]⟩
  | none =>
    .ok ⟨"EXISTS (SELECT 1 FROM tags t WHERE t.entry_id = entries.entry_id AND t.value = ?)",
      [.text val]⟩

def collectionExists (value : Expr) : Except String WhereClause := do
  let val ← literalText value
  .ok ⟨"EXISTS (SELECT 1 FROM collection_items ci JOIN collections c ON c.collection_id = ci.collection_id WHERE ci.entry_id = entries.entry_id AND c.name = ?)",
    [.text val]⟩

def collectionNameLike (value : Expr) : Except String WhereClause := do
  let val ← literalLike value
  .ok ⟨"EXISTS (SELECT 1 FROM collection_items ci JOIN collections c ON c.collection_id = ci.collection_id WHERE ci.entry_id = entries.entry_id AND c.name LIKE ? || '%' ESCAPE '\\')",
    [.text val]⟩

def collectionNameRegexp (value : Expr) : Except String WhereClause := do
  let val ← literalText value
  .ok ⟨"EXISTS (SELECT 1 FROM collection_items ci JOIN collections c ON c.collection_id = ci.collection_id WHERE ci.entry_id = entries.entry_id AND c.name REGEXP ?)",
    [.text val]⟩

def sourceExists : String :=
  "EXISTS (SELECT 1 FROM entry_sources s WHERE s.entry_id = entries.entry_id AND s.source = ?)"

def fsDirExists : String :=
  "EXISTS (SELECT 1 FROM entry_sources s WHERE s.entry_id = entries.entry_id AND parent_dir(s.playback_path) = ?)"

/-- A text column, where unset reads as the empty text. -/
def textColumn (col : ScalarField) : String := "COALESCE(entries." ++ col.name ++ ", '')"

def comparisonOp (func : String) : Except String String :=
  if func = "_==_" then .ok "="
  else if func = "_!=_" then .ok "<>"
  else if func = "_>=_" then .ok ">="
  else if func = "_<=_" then .ok "<="
  else if func = "_>_" then .ok ">"
  else if func = "_<_" then .ok "<"
  else .error "comparison called with non-comparison op"

/-- The arguments of a free `keyword_score(…)` call. -/
def keywordScoreCall : Expr → Option (List Expr)
  | .call none func args => if func = "keyword_score" then some args else none
  | _ => none

def eqIgnoreAsciiCase (a b : String) : Bool :=
  a.toList.map Char.toLower == b.toList.map Char.toLower

/-- The keywords of a list, each once whatever its case. -/
def distinctKeywords : List String → List String → List String
  | kept, [] => kept
  | kept, k :: ks =>
    distinctKeywords (if kept.any fun old => eqIgnoreAsciiCase old k then kept else kept ++ [k]) ks

def keywordCase : String :=
  "(CASE WHEN COALESCE(entries.title, '') LIKE '%' || ? || '%' ESCAPE '\\' OR EXISTS (SELECT 1 FROM tags t WHERE t.entry_id = entries.entry_id AND lower(t.value) = lower(?)) THEN 1 ELSE 0 END)"

/-- Whether no score of `size` keywords compares so to `n`. -/
def unreachableScore (op : String) (n size : ℤ) : Bool :=
  if op = ">=" then size < n
  else if op = ">" then size ≤ n
  else if op = "=" then n < 0 || size < n
  else if op = "<=" then n < 0
  else if op = "<" then n ≤ 0
  else false

/-- `keyword_score([…]) <op> <int>`, with `func` as it reads with the score on the left. -/
def keywordScoreComparison (func : String) (args : List Expr) (threshold : Expr) :
    Except String WhereClause :=
  match args with
  | [.list elements] => do
    let texts ← elements.mapM literalText
    let keywords := distinctKeywords [] texts
    if keywords = [] then .error "keyword_score() has an empty keyword set"
    let n ← literalInt threshold
    let op ← comparisonOp func
    if unreachableScore op n keywords.length then
      .error ("keyword_score() of " ++ toString keywords.length ++
        " keyword(s) can never satisfy " ++ op ++ " " ++ toString n)
    .ok ⟨"(" ++ String.intercalate " + " (keywords.map fun _ => keywordCase) ++ ") " ++ op ++ " ?",
      (keywords.flatMap fun k => [.text (likeEscape k), .text k]) ++ [.int n]⟩
  | [_] => .error "keyword_score() needs a list literal of keywords"
  | _ => .error "keyword_score() takes one list of keywords"

def comparison (func : String) (lhs rhs : Expr) : Except String WhereClause :=
  match keywordScoreCall lhs, keywordScoreCall rhs with
  | some args, _ => keywordScoreComparison func args rhs
  | none, some args => keywordScoreComparison (mirrorComparison func) args lhs
  | none, none => do
    let (name, literal, onRight) ← fieldAndLiteral lhs rhs
    let kind ← resolveField name
    let op ← comparisonOp (if onRight then mirrorComparison func else func)
    match kind with
    | .str col =>
      if op ≠ "=" ∧ op ≠ "<>" then
        .error ("operator " ++ op ++ " needs a numeric field; item." ++ name ++ " is text")
      else do
        let val ← literalText literal
        .ok ⟨textColumn col ++ " " ++ op ++ " ?", [.text val]⟩
    | .num col => do
      let val ← literalInt literal
      .ok ⟨"entries." ++ col.name ++ " " ++ op ++ " ?", [.int val]⟩
    | kind =>
      -- the one comparison a membership field allows
      if (kind = .source ∨ kind = .fsDir) ∧ op = "=" then do
        let val ← literalText literal
        .ok ⟨if kind = .source then sourceExists else fsDirExists, [.text val]⟩
      else
        .error ("item." ++ name ++ " is multi-valued; use membership (contains), not " ++ op)

def inList (lhs rhs : Expr) : Except String WhereClause := do
  let name ← fieldOf lhs
  let kind ← resolveField name
  match rhs with
  | .list elements =>
    if elements.isEmpty then .ok ⟨"0", []⟩
    else
      let placeholders := String.intercalate ", " (elements.map fun _ => "?")
      match kind with
      | .str col => do
        let vals ← elements.mapM literalText
        .ok ⟨textColumn col ++ " IN (" ++ placeholders ++ ")", vals.map .text⟩
      | .num col => do
        let vals ← elements.mapM literalInt
        .ok ⟨"entries." ++ col.name ++ " IN (" ++ placeholders ++ ")", vals.map .int⟩
      | _ =>
        .error ("item." ++ name ++ " is multi-valued; use membership (contains), not `in`")
  | _ => .error ("`in` on item." ++ name ++ " needs a list literal")

def methodPredicate (method : String) (target : Expr) (args : List Expr) :
    Except String WhereClause := do
  let name ← fieldOf target
  let kind ← resolveField name
  match args with
  | [] => .error ("item." ++ name ++ "." ++ method ++ "() needs one argument")
  | arg :: _ =>
    if method = "contains" then
      match kind with
      | .str col => do
        let val ← literalLike arg
        .ok ⟨textColumn col ++ " LIKE '%' || ? || '%' ESCAPE '\\'", [.text val]⟩
      | .tag ns => tagExists ns arg
      | .collection => collectionExists arg
      | _ => .error ("item." ++ name ++ " does not support contains()")
    else if method = "startsWith" then
      match kind with
      | .str col => do
        let val ← literalLike arg
        .ok ⟨textColumn col ++ " LIKE ? || '%' ESCAPE '\\'", [.text val]⟩
      | .collection => collectionNameLike arg
      | _ => .error ("item." ++ name ++ ".startsWith() needs a text field or item.collections")
    else if method = "matches" then
      match kind with
      | .str col => do
        let val ← literalText arg
        .ok ⟨textColumn col ++ " REGEXP ?", [.text val]⟩
      | .collection => collectionNameRegexp arg
      | _ => .error ("item." ++ name ++ ".matches() needs a text field or item.collections")
    else .error ("unsupported method ." ++ method ++ "() in query")

def comparisons : List String := ["_==_", "_!=_", "_>=_", "_<=_", "_>_", "_<_"]

mutual

def predicate : Expr → Except String WhereClause
  | .call (some target) func args => methodPredicate func target args
  | .call none func args => operatorPredicate func args
  | other =>
    .error ("query expression must be a boolean predicate, found " ++ describe other)

/-- `_&&_`, `_||_`, `!_`, the comparisons and `@in`. The parser gives each its operands. -/
def operatorPredicate (func : String) : List Expr → Except String WhereClause
  | a :: b :: _ =>
    if func = "_&&_" ∨ func = "_||_" then do
      let left ← predicate a
      let right ← predicate b
      .ok ⟨"(" ++ left.sql ++ (if func = "_&&_" then " AND " else " OR ") ++ right.sql ++ ")",
        left.params ++ right.params⟩
    else if func = "!_" then do
      let inner ← predicate a
      .ok ⟨"(NOT " ++ inner.sql ++ ")", inner.params⟩
    else if func ∈ comparisons then comparison func a b
    else if func = "@in" then inList a b
    else .error ("unsupported operator \"" ++ func ++ "\" in query")
  | [a] =>
    if func = "!_" then do
      let inner ← predicate a
      .ok ⟨"(NOT " ++ inner.sql ++ ")", inner.params⟩
    else if func = "_&&_" ∨ func = "_||_" ∨ func ∈ comparisons ∨ func = "@in" then
      .error "index out of bounds"
    else .error ("unsupported operator \"" ++ func ++ "\" in query")
  | [] =>
    if func = "!_" ∨ func = "_&&_" ∨ func = "_||_" ∨ func ∈ comparisons ∨ func = "@in" then
      .error "index out of bounds"
    else .error ("unsupported operator \"" ++ func ++ "\" in query")

end

def translate (program : Expr) : Except String WhereClause := predicate program

end EtvStation.Query
