import Mathlib.Data.List.Basic

/-! SQL text: how it is cut into tokens, and how the values of a statement's positional
parameters take the places of its question marks, in the order these stand in the text. -/
namespace EtvStation.Lib.Sql

inductive Value
  | null
  | int (i : Int)
  | text (s : String)
  deriving DecidableEq, Repr

inductive Token
  /-- A keyword, a name or a number. -/
  | word (w : String)
  /-- A quoted text. -/
  | str (s : String)
  | sym (s : String)
  | param
  /-- A parameter with its value. -/
  | bound (v : Value)
  deriving DecidableEq, Repr

/-- What the characters read since the last token may still become. Characters are kept last
first. -/
inductive Pending
  | clean
  | word (w : List Char)
  | str (s : List Char)
  /-- A quoted text whose quote may be the first of two, which stand for one. -/
  | quote (s : List Char)
  /-- An operator that may have a second character. -/
  | op (c : Char)
  deriving DecidableEq, Repr

def Pending.flush : Pending → List Token
  | .clean => []
  | .word w => [.word (String.ofList w.reverse)]
  | .str _ => []
  | .quote s => [.str (String.ofList s.reverse)]
  | .op c => [.sym (String.singleton c)]

def isWord (c : Char) : Bool := c.isAlphanum || c == '_'

/-- Read a character that opens something new. -/
def start (c : Char) : List Token × Pending :=
  if c = '\'' then ([], .str [])
  else if isWord c then ([], .word [c])
  else if c = ' ' then ([], .clean)
  else if c = '?' then ([.param], .clean)
  else if c = '<' ∨ c = '>' ∨ c = '|' then ([], .op c)
  else ([.sym (String.singleton c)], .clean)

/-- Read a character that goes on with what is pending. -/
def Pending.join : Pending → Char → Option (List Token × Pending)
  | .clean, _ => none
  | .word w, c => if isWord c then some ([], .word (c :: w)) else none
  | .str s, c => some ([], if c = '\'' then .quote s else .str (c :: s))
  | .quote s, c => if c = '\'' then some ([], .str (c :: s)) else none
  | .op o, c =>
    if [('<', '='), ('<', '>'), ('>', '='), ('|', '|')].contains (o, c) then
      some ([.sym (String.ofList [o, c])], .clean)
    else none

def Pending.push (p : Pending) (c : Char) : List Token × Pending :=
  (p.join c).getD (p.flush ++ (start c).1, (start c).2)

def scan : Pending → List Char → List Token × Pending
  | p, [] => ([], p)
  | p, c :: cs => ((p.push c).1 ++ (scan (p.push c).2 cs).1, (scan (p.push c).2 cs).2)

/-- Whether the text may end here: not inside quotes. -/
def Pending.ends : Pending → Bool
  | .str _ => false
  | _ => true

def lex (text : String) : Option (List Token) :=
  if (scan .clean text.toList).2.ends then
    some ((scan .clean text.toList).1 ++ (scan .clean text.toList).2.flush)
  else none

/-- A literal text is a list of characters to begin with. -/
theorem lex_ofList {cs : List Char} {ts : List Token}
    (he : (scan .clean cs).2.ends = true)
    (ht : (scan .clean cs).1 ++ (scan .clean cs).2.flush = ts) :
    lex (String.ofList cs) = some ts := by
  rw [lex, String.toList_ofList, if_pos he, ht]

/-- The same for a text written as literals side by side. -/
theorem lex_ofList_append {as bs : List Char} {ts : List Token}
    (he : (scan .clean (as ++ bs)).2.ends = true)
    (ht : (scan .clean (as ++ bs)).1 ++ (scan .clean (as ++ bs)).2.flush = ts) :
    lex (String.ofList as ++ String.ofList bs) = some ts := by
  rw [← String.ofList_append]
  exact lex_ofList he ht

theorem lex_ofList_append_append {as bs cs : List Char} {ts : List Token}
    (he : (scan .clean (as ++ bs ++ cs)).2.ends = true)
    (ht : (scan .clean (as ++ bs ++ cs)).1 ++ (scan .clean (as ++ bs ++ cs)).2.flush = ts) :
    lex (String.ofList as ++ String.ofList bs ++ String.ofList cs) = some ts := by
  rw [← String.ofList_append, ← String.ofList_append]
  exact lex_ofList he ht

theorem scan_append (p : Pending) (a b : List Char) :
    scan p (a ++ b) = ((scan p a).1 ++ (scan (scan p a).2 b).1, (scan (scan p a).2 b).2) := by
  induction a generalizing p with
  | nil => rfl
  | cons c a ih => rw [List.cons_append, scan, ih, scan, List.append_assoc]

/-- A blank, a comma or a closing parenthesis goes on with nothing. -/
theorem join_separator {p : Pending} (hp : p.ends = true) {c : Char}
    (hc : c = ' ' ∨ c = ',' ∨ c = ')') : p.join c = none := by
  cases p with
  | clean => rfl
  | str s => simp [Pending.ends] at hp
  | word w =>
    obtain rfl | rfl | rfl := hc
    · rfl
    · rfl
    · rfl
  | quote s =>
    obtain rfl | rfl | rfl := hc
    · rfl
    · rfl
    · rfl
  | op o =>
    have hne : ∀ d, d = '=' ∨ d = '>' ∨ d = '|' → c ≠ d := by
      rintro d (rfl | rfl | rfl) <;> obtain rfl | rfl | rfl := hc <;> decide
    simp [Pending.join, hne]

theorem lex_eq_some {text : String} {ts : List Token} :
    lex text = some ts ↔ (scan .clean text.toList).2.ends = true ∧
      (scan .clean text.toList).1 ++ (scan .clean text.toList).2.flush = ts := by
  rw [lex]
  by_cases h : (scan .clean text.toList).2.ends = true
  · rw [if_pos h, Option.some.injEq, and_iff_right h]
  · rw [if_neg h]
    exact iff_of_false (by simp) fun hx => h hx.1

/-- Two texts with a separator between them are cut one by one. -/
theorem lex_separated {c : Char} (hc : c = ' ' ∨ c = ',' ∨ c = ')') {f g : String}
    {ts us : List Token} (hf : lex f = some ts) (hg : lex g = some us) :
    lex (f ++ String.singleton c ++ g) = some (ts ++ (start c).1 ++ us) := by
  obtain ⟨hfe, hft⟩ := lex_eq_some.mp hf
  obtain ⟨hge, hgt⟩ := lex_eq_some.mp hg
  have hclean : (start c).2 = .clean := by obtain rfl | rfl | rfl := hc <;> rfl
  have hscan : scan .clean (f ++ String.singleton c ++ g).toList =
      ((scan .clean f.toList).1 ++ ((scan .clean f.toList).2.flush ++ (start c).1 ++
        (scan .clean g.toList).1), (scan .clean g.toList).2) := by
    rw [String.toList_append, String.toList_append, String.toList_singleton, List.append_assoc,
      List.singleton_append, scan_append, scan, Pending.push, join_separator hfe hc,
      Option.getD_none, hclean]
  rw [lex_eq_some, hscan]
  refine ⟨hge, ?_⟩
  rw [← hft, ← hgt]
  simp only [List.append_assoc]

theorem lex_space {f g : String} {ts us : List Token} (hf : lex f = some ts)
    (hg : lex g = some us) : lex (f ++ " " ++ g) = some (ts ++ us) := by
  have h := lex_separated (Or.inl rfl) hf hg
  rwa [show (start ' ').1 = [] from rfl, List.append_nil] at h

theorem lex_comma {f g : String} {ts us : List Token} (hf : lex f = some ts)
    (hg : lex g = some us) : lex (f ++ ", " ++ g) = some (ts ++ .sym "," :: us) := by
  have hcomma : lex (f ++ ",") = some (ts ++ [.sym ","]) := by
    have h := lex_separated (c := ',') (Or.inr (Or.inl rfl)) hf (show lex "" = some [] from rfl)
    rwa [List.append_nil, String.append_empty] at h
  have h := lex_space hcomma hg
  rw [List.append_assoc, List.singleton_append] at h
  rw [← h, String.append_assoc, String.append_assoc, String.append_assoc]
  rfl

theorem lex_paren {f : String} {ts : List Token} (hf : lex f = some ts) :
    lex ("(" ++ f ++ ")") = some (.sym "(" :: ts ++ [.sym ")"]) := by
  have hopen : lex ("(" ++ f) = some (.sym "(" :: ts) := by
    obtain ⟨he, ht⟩ := lex_eq_some.mp hf
    rw [lex_eq_some, String.toList_append, scan_append]
    refine ⟨he, ?_⟩
    rw [← ht]
    rfl
  have h := lex_separated (c := ')') (Or.inr (Or.inr rfl)) hopen (show lex "" = some [] from rfl)
  rwa [List.append_nil, String.append_empty] at h

/-- Give the parameters their values in the order they stand in the text. The statement fails
with a value too few or too many. -/
def bind : List Token → List Value → Option (List Token)
  | [], [] => some []
  | [], _ :: _ => none
  | t :: ts, vs =>
    if t = .param then
      match vs with
      | [] => none
      | v :: vs => (bind ts vs).map (.bound v :: ·)
    else (bind ts vs).map (t :: ·)

theorem bind_cons {t : Token} (ht : t ≠ .param) (ts : List Token) (vs : List Value) :
    bind (t :: ts) vs = (bind ts vs).map (t :: ·) := by
  cases vs <;> simp [bind, ht]

theorem bind_param (ts : List Token) (v : Value) (vs : List Value) :
    bind (.param :: ts) (v :: vs) = (bind ts vs).map (.bound v :: ·) := by
  simp [bind]

theorem bind_append {ts us : List Token} {vs ws : List Value} {ts' us' : List Token}
    (ht : bind ts vs = some ts') (hu : bind us ws = some us') :
    bind (ts ++ us) (vs ++ ws) = some (ts' ++ us') := by
  induction ts generalizing vs ts' with
  | nil =>
    cases vs with
    | nil =>
      rw [bind, Option.some.injEq] at ht
      rw [← ht]
      exact hu
    | cons v vs => simp [bind] at ht
  | cons t ts ih =>
    by_cases hp : t = .param
    · subst hp
      cases vs with
      | nil => simp [bind] at ht
      | cons v vs =>
        rw [bind_param, Option.map_eq_some_iff] at ht
        obtain ⟨rest, hr, rfl⟩ := ht
        rw [List.cons_append, List.cons_append, bind_param, ih hr]
        rfl
    · rw [bind_cons hp, Option.map_eq_some_iff] at ht
      obtain ⟨rest, hr, rfl⟩ := ht
      rw [List.cons_append, bind_cons hp, ih hr]
      rfl

/-- As many values are bound as there are question marks. -/
theorem bind_length {ts ts' : List Token} {vs : List Value} (h : bind ts vs = some ts') :
    vs.length = ts.count .param := by
  induction ts generalizing vs ts' with
  | nil =>
    cases vs with
    | nil => rfl
    | cons v vs => simp [bind] at h
  | cons t ts ih =>
    by_cases hp : t = .param
    · subst hp
      cases vs with
      | nil => simp [bind] at h
      | cons v vs =>
        rw [bind_param, Option.map_eq_some_iff] at h
        obtain ⟨rest, hr, -⟩ := h
        rw [List.length_cons, List.count_cons_self, ih hr]
    · rw [bind_cons hp, Option.map_eq_some_iff] at h
      obtain ⟨rest, hr, -⟩ := h
      rw [List.count_cons_of_ne hp, ih hr]

end EtvStation.Lib.Sql
