import EtvStation.Query.Meaning

/-! The parts a clause is assembled from: how each reads inside the text around it, and its value
on an entry. -/
namespace EtvStation.Query

open Ingest (Entry TagNs)
open Lib
open Lib.Sql
open Lib.Sql.Value (ofBool ofTruth)

/-- Every token of a clause is one of these; a literal of the query is none. -/
def vocabulary : List Token :=
  [.param, Token.str "", Token.str "%", Token.str "\\"] ++
  (["(", ")", ",", ".", "=", "<>", "<", "<=", ">", ">=", "+", "||"].map .sym) ++
  (["0", "1", "AND", "OR", "NOT", "LIKE", "ESCAPE", "IN", "REGEXP", "EXISTS", "SELECT", "FROM",
    "JOIN", "ON", "WHERE", "CASE", "WHEN", "THEN", "ELSE", "END", "COALESCE", "lower",
    "parent_dir", "entries", "tags", "t", "entry_sources", "s", "collection_items", "ci",
    "collections", "c", "entry_id", "namespace", "value", "source", "playback_path",
    "collection_id", "name"].map .word) ++
  ScalarField.all.map fun f => .word f.name

section

variable (E : Engine) (s : Scope)

/-- The text is an operand that has the value `v`. -/
def Piece (sql : String) (params : List Value) (v : Value) : Prop :=
  ∃ ts us e, lex sql = some ts ∧ (∀ t ∈ ts, t ∈ vocabulary) ∧ bind ts params = some us ∧
    Primary us e ∧ e.eval E s = v

/-- The clause is true, false or unknown, as `t` says. -/
def Says (w : WhereClause) (t : Option Bool) : Prop :=
  ∃ ts us e, lex w.sql = some ts ∧ (∀ t ∈ ts, t ∈ vocabulary) ∧ bind ts w.params = some us ∧
    Clause us e ∧ (e.eval E s).truth = t

/-- The clause is either true or false, as `b` says. -/
def Means (w : WhereClause) (b : Bool) : Prop :=
  ∃ ts us e, lex w.sql = some ts ∧ (∀ t ∈ ts, t ∈ vocabulary) ∧ bind ts w.params = some us ∧
    Clause us e ∧ (e.eval E s).truth = some b

end

variable {E : Engine} {s : Scope}

theorem Piece.means {sql : String} {params : List Value} {v : Value} {b : Bool}
    (h : Piece E s sql params v) (hb : v.truth = some b) : Means E s ⟨sql, params⟩ b := by
  obtain ⟨ts, us, e, hlex, hvoc, hbind, hprim, heval⟩ := h
  exact ⟨ts, us, e, hlex, hvoc, hbind, hprim.clause, by rw [heval, hb]⟩

theorem lex_param {f : String} {ts : List Token} (hf : lex f = some ts) :
    lex (f ++ " ?") = some (ts ++ [.param]) := by
  have h := lex_space hf (show lex "?" = some [.param] from lex_ofList rfl rfl)
  rw [String.append_assoc] at h
  exact h

structure IsOp (op : String) (o : Op) : Prop where
  lex_eq : lex op = some [.sym op]
  known : Token.sym op ∈ vocabulary
  tail : ∃ p, tailOf (.sym op) = some (p, .op o) ∧ 4 ≤ p

theorem Piece.compare_spells {sql op : String} {params : List Value} {v x : Value} {o : Op}
    {t : Option Bool} (h : Piece E s sql params v) (hop : IsOp op o)
    (ht : (E.apply o v x).truth = t) :
    Says E s ⟨sql ++ " " ++ op ++ " ?", params ++ [x]⟩ t := by
  obtain ⟨ts, us, e, hlex, hvoc, hbind, hprim, heval⟩ := h
  obtain ⟨p, htail, hp⟩ := hop.tail
  have htext : lex (sql ++ " " ++ op ++ " ?") = some (ts ++ Token.sym op :: [.param]) := by
    rw [lex_param (lex_space hlex hop.lex_eq), List.append_assoc]
    rfl
  have hbound : bind (ts ++ Token.sym op :: [.param]) (params ++ [x]) =
      some (us ++ Token.sym op :: [.bound x]) := by
    apply bind_append hbind
    rw [bind_cons (by simp), bind_param]
    rfl
  refine ⟨_, _, .bin o e (.lit x), htext, ?_, hbound,
    hprim.compare htail hp (primary_bound x), ?_⟩
  · intro t ht
    rw [List.mem_append, List.mem_cons, List.mem_singleton] at ht
    obtain ht | rfl | rfl := ht
    · exact hvoc t ht
    · exact hop.known
    · decide
  · simp only [Ast.eval, heval]
    exact ht

theorem Piece.compare {sql op : String} {params : List Value} {v x : Value} {o : Op} {b : Bool}
    (h : Piece E s sql params v) (hop : IsOp op o) (hb : (E.apply o v x).truth = some b) :
    Means E s ⟨sql ++ " " ++ op ++ " ?", params ++ [x]⟩ b :=
  h.compare_spells hop hb

theorem Says.paren {l r : WhereClause} {a b : Option Bool} (hl : Says E s l a) (hr : Says E s r b)
    (conj : Bool) :
    Piece E s ("(" ++ l.sql ++ (if conj then " AND " else " OR ") ++ r.sql ++ ")")
      (l.params ++ r.params) (ofTruth (if conj then and3 a b else or3 a b)) := by
  obtain ⟨ts, us, e, hlex, hvoc, hbind, hcl, heval⟩ := hl
  obtain ⟨ts', us', e', hlex', hvoc', hbind', hcl', heval'⟩ := hr
  have hword : ∀ w : String, lex w = some [Token.word w] → lex (l.sql ++ " " ++ w ++ " " ++ r.sql) =
      some (ts ++ Token.word w :: ts') := by
    intro w hw
    rw [lex_space (lex_space hlex hw) hlex', List.append_assoc]
    rfl
  have hsplit : ∀ w : String, "(" ++ l.sql ++ (" " ++ w ++ " ") ++ r.sql ++ ")" =
      "(" ++ (l.sql ++ " " ++ w ++ " " ++ r.sql) ++ ")" := by
    intro w
    simp only [String.append_assoc]
  have hmem : ∀ w : String, Token.word w ∈ vocabulary →
      ∀ t ∈ Token.sym "(" :: (ts ++ Token.word w :: ts') ++ [Token.sym ")"], t ∈ vocabulary := by
    intro w hw t ht
    simp only [List.cons_append, List.append_assoc, List.mem_cons, List.mem_append,
      List.not_mem_nil, or_false] at ht
    obtain rfl | ht | rfl | ht | rfl := ht
    · decide
    · exact hvoc t ht
    · exact hw
    · exact hvoc' t ht
    · decide
  have hbound : ∀ w : String,
      bind (.sym "(" :: (ts ++ Token.word w :: ts') ++ [Token.sym ")"]) (l.params ++ r.params) =
        some (Token.sym "(" :: (us ++ Token.word w :: us') ++ [Token.sym ")"]) := by
    intro w
    have hinner : bind (ts ++ Token.word w :: ts') (l.params ++ r.params) =
        some (us ++ Token.word w :: us') := by
      apply bind_append hbind
      rw [bind_cons (by simp), hbind']
      rfl
    rw [List.cons_append, bind_cons (by simp), ← List.append_nil (l.params ++ r.params),
      bind_append hinner (show bind [.sym ")"] [] = some [.sym ")"] by decide)]
    rfl
  cases conj with
  | true =>
    refine ⟨_, _, .bin .and e e', ?_, hmem "AND" (by decide), hbound "AND",
      ((hcl.and hcl').operand (by omega)).paren, ?_⟩
    · rw [if_pos rfl, show " AND " = " " ++ "AND" ++ " " from rfl, hsplit]
      exact lex_paren (hword "AND" (lex_ofList rfl rfl))
    · simp only [Ast.eval, Engine.apply, heval, heval']
      rfl
  | false =>
    refine ⟨_, _, .bin .or e e', ?_, hmem "OR" (by decide), hbound "OR",
      ((hcl.or hcl').operand (by omega)).paren, ?_⟩
    · rw [if_neg (by decide), show " OR " = " " ++ "OR" ++ " " from rfl, hsplit]
      exact lex_paren (hword "OR" (lex_ofList rfl rfl))
    · simp only [Ast.eval, Engine.apply, heval, heval']
      rfl

theorem Means.paren {l r : WhereClause} {a b : Bool} (hl : Means E s l a) (hr : Means E s r b)
    (conj : Bool) :
    Piece E s ("(" ++ l.sql ++ (if conj then " AND " else " OR ") ++ r.sql ++ ")")
      (l.params ++ r.params) (ofBool (if conj then a && b else a || b)) := by
  have hpiece := Says.paren hl hr conj
  cases conj with
  | true => exact hpiece
  | false => exact hpiece

theorem Says.not {w : WhereClause} {t : Option Bool} (h : Says E s w t) :
    Piece E s ("(NOT " ++ w.sql ++ ")") w.params (ofTruth (t.map (!·))) := by
  obtain ⟨ts, us, e, hlex, hvoc, hbind, hcl, heval⟩ := h
  have htext : lex ("(NOT " ++ w.sql ++ ")") =
      some (Token.sym "(" :: (Token.word "NOT" :: ts) ++ [Token.sym ")"]) := by
    have hnot := lex_space (show lex "NOT" = some [.word "NOT"] from lex_ofList rfl rfl) hlex
    have hopen : "(NOT " ++ w.sql = "(" ++ ("NOT" ++ " " ++ w.sql) := by
      rw [show "(NOT " = "(" ++ "NOT" ++ " " from rfl]
      simp only [String.append_assoc]
    rw [hopen]
    exact lex_paren hnot
  refine ⟨_, Token.sym "(" :: (Token.word "NOT" :: us) ++ [Token.sym ")"], .not e, htext, ?_, ?_,
    (((hcl.operand le_rfl).reads_not 0).operand (by omega)).paren, ?_⟩
  · intro t ht
    simp only [List.cons_append, List.mem_cons, List.mem_append, List.not_mem_nil, or_false] at ht
    obtain rfl | rfl | ht | rfl := ht
    · decide
    · decide
    · exact hvoc t ht
    · decide
  · rw [List.cons_append, List.cons_append, bind_cons (by simp), bind_cons (by simp),
      ← List.append_nil w.params, bind_append hbind (show bind [.sym ")"] [] = _ from rfl)]
    rfl
  · simp only [Ast.eval, heval]

theorem Means.not {w : WhereClause} {b : Bool} (h : Means E s w b) :
    Piece E s ("(NOT " ++ w.sql ++ ")") w.params (ofBool (!b)) :=
  Says.not h

end EtvStation.Query
