import EtvStation.Lib.Sql.Tokens

/-! The expressions of a `WHERE` clause, read from tokens by operator precedence. A reading is
composed from the readings of its parts: what an operand reads, an operator reads around it. -/
namespace EtvStation.Lib.Sql

inductive Op
  | or
  | and
  | eq
  | ne
  | regexp
  | lt
  | le
  | gt
  | ge
  | add
  | cat
  deriving DecidableEq, Repr

inductive Ast
  | lit (v : Value)
  | col (table column : String)
  | not (e : Ast)
  | bin (op : Op) (l r : Ast)
  | like (e pattern esc : Ast)
  | inList (e : Ast) (es : List Ast)
  | call (f : String) (args : List Ast)
  | ite (c a b : Ast)
  /-- `EXISTS` over tables under their aliases: some rows of theirs meet every condition. -/
  | anyRow (tables : List (String × String)) (conds : List Ast)

inductive Tail
  | op (o : Op)
  | like
  | inList

/-- A tail that begins with the token, and how tightly it binds. `NOT` stands at 3. -/
def tailOf : Token → Option (ℕ × Tail)
  | .word w =>
    if w = "OR" then some (1, .op .or)
    else if w = "AND" then some (2, .op .and)
    else if w = "REGEXP" then some (4, .op .regexp)
    else if w = "LIKE" then some (4, .like)
    else if w = "IN" then some (4, .inList)
    else none
  | .sym s =>
    if s = "=" then some (4, .op .eq)
    else if s = "<>" then some (4, .op .ne)
    else if s = "<" then some (5, .op .lt)
    else if s = "<=" then some (5, .op .le)
    else if s = ">" then some (5, .op .gt)
    else if s = ">=" then some (5, .op .ge)
    else if s = "+" then some (7, .op .add)
    else if s = "||" then some (8, .op .cat)
    else none
  | _ => none

/-- The number a word is, when it is digits only. -/
def number (w : String) : Option ℕ :=
  if w.toList ≠ [] ∧ w.toList.all Char.isDigit then
    some (w.toList.foldl (fun n c => 10 * n + (c.toNat - '0'.toNat)) 0)
  else none

/-- Drop the tokens `us` from the front. -/
def expect (us ts : List Token) : Option (List Token) :=
  if us <+: ts then some (ts.drop us.length) else none

theorem expect_append (us ts : List Token) : expect us (us ++ ts) = some ts := by
  rw [expect, if_pos (List.prefix_append us ts), List.drop_left]

theorem expect_cons (u : Token) (ts : List Token) : expect [u] (u :: ts) = some ts :=
  expect_append [u] ts

mutual

/-- An expression no operator stands around. -/
def primary : ℕ → List Token → Option (Ast × List Token)
  | _ + 1, .bound v :: ts => some (.lit v, ts)
  | _ + 1, Token.str s :: ts => some (.lit (.text s), ts)
  | n + 1, Token.sym s :: ts =>
    if s = "(" then do
      let e ← expr n 0 ts
      let ts ← expect [.sym ")"] e.2
      some (e.1, ts)
    else none
  | n + 1, Token.word w :: ts =>
    if w = "NOT" then do
      let e ← expr n 4 ts
      some (.not e.1, e.2)
    else if w = "EXISTS" then do
      let ts ← expect [.sym "(", .word "SELECT", .word "1", .word "FROM"] ts
      let rows ← tables n ts
      let ts ← expect [.sym ")"] rows.2
      some (.anyRow rows.1.1 rows.1.2, ts)
    else if w = "CASE" then do
      let ts ← expect [.word "WHEN"] ts
      let c ← expr n 0 ts
      let ts ← expect [.word "THEN"] c.2
      let a ← expr n 0 ts
      let ts ← expect [.word "ELSE"] a.2
      let b ← expr n 0 ts
      let ts ← expect [.word "END"] b.2
      some (.ite c.1 a.1 b.1, ts)
    else
      match number w with
      | some i => some (.lit (.int i), ts)
      | none =>
        match ts with
        | Token.sym s :: ts =>
          if s = "(" then (exprs n ts).map fun es => (.call w es.1, es.2)
          else if s = "." then
            match ts with
            | Token.word c :: ts => some (.col w c, ts)
            | _ => none
          else none
        | _ => none
  | _, _ => none

/-- An expression with the tails that bind at least as tightly as `k`. -/
def expr : ℕ → ℕ → List Token → Option (Ast × List Token)
  | n + 1, k, ts => (primary n ts).bind fun e => tails n k e.1 e.2
  | 0, _, _ => none

def tails : ℕ → ℕ → Ast → List Token → Option (Ast × List Token)
  | n + 1, k, left, t :: ts =>
    match tailOf t with
    | none => some (left, t :: ts)
    | some (p, tail) =>
      if p < k then some (left, t :: ts)
      else
        match tail with
        | .op o => (expr n (p + 1) ts).bind fun r => tails n k (.bin o left r.1) r.2
        | .like => do
          let pattern ← expr n (p + 1) ts
          let ts ← expect [.word "ESCAPE"] pattern.2
          let esc ← expr n (p + 1) ts
          tails n k (.like left pattern.1 esc.1) esc.2
        | .inList => do
          let ts ← expect [.sym "("] ts
          let es ← exprs n ts
          tails n k (.inList left es.1) es.2
  | _ + 1, _, left, [] => some (left, [])
  | 0, _, _, _ => none

/-- Expressions with commas between them, up to the closing parenthesis. -/
def exprs : ℕ → List Token → Option (List Ast × List Token)
  | n + 1, ts => do
    let e ← expr n 0 ts
    match e.2 with
    | Token.sym s :: ts =>
      if s = ")" then some ([e.1], ts)
      else if s = "," then (exprs n ts).map fun es => (e.1 :: es.1, es.2)
      else none
    | _ => none
  | 0, _ => none

/-- What `FROM` names, with the conditions of a join and of `WHERE`. -/
def tables : ℕ → List Token → Option ((List (String × String) × List Ast) × List Token)
  | n + 1, Token.word t :: Token.word a :: Token.word w :: ts =>
    if w = "WHERE" then (expr n 0 ts).map fun e => (([(t, a)], [e.1]), e.2)
    else if w = "JOIN" then
      match ts with
      | Token.word t' :: Token.word a' :: ts => do
        let ts ← expect [.word "ON"] ts
        let on ← expr n 0 ts
        let ts ← expect [.word "WHERE"] on.2
        let e ← expr n 0 ts
        some (([(t, a), (t', a')], [on.1, e.1]), e.2)
      | _ => none
    else none
  | _, _ => none

end

/-- Read a whole clause. The fuel covers any nesting the tokens can hold. -/
def parse (ts : List Token) : Option Ast :=
  match expr (4 * ts.length + 2) 0 ts with
  | some (e, []) => some e
  | _ => none

/-- No tail of `ts` binds at `k` or tighter, so an operand that takes such tails ends here. -/
def Stops (k : ℕ) (ts : List Token) : Prop := ∀ t ∈ ts.head?, ∀ p ∈ tailOf t, p.1 < k

theorem Stops.mono {k j : ℕ} {ts : List Token} (h : Stops k ts) (hk : k ≤ j) : Stops j ts :=
  fun t ht p hp => Nat.lt_of_lt_of_le (h t ht p hp) hk

theorem stops_cons {k : ℕ} {t : Token} {ts : List Token} (h : ∀ p ∈ tailOf t, p.1 < k) :
    Stops k (t :: ts) := by
  intro u hu
  rw [List.head?_cons, Option.mem_def, Option.some.injEq] at hu
  exact hu ▸ h

theorem stops_none {k : ℕ} {t : Token} {ts : List Token} (h : tailOf t = none) :
    Stops k (t :: ts) :=
  stops_cons fun p hp => by simp [h] at hp

theorem stops_nil (k : ℕ) : Stops k [] := fun _ ht => by simp at ht

theorem tails_stops {n k : ℕ} (hn : 0 < n) (e : Ast) {ts : List Token} (h : Stops k ts) :
    tails n k e ts = some (e, ts) := by
  obtain ⟨n, rfl⟩ : ∃ i, n = i + 1 := ⟨n - 1, by omega⟩
  cases ts with
  | nil => rfl
  | cons t ts =>
    rw [tails]
    cases ht : tailOf t with
    | none => rfl
    | some p => simp only [if_pos (h t (by simp) p ht)]

/-- The tokens are an operand by themselves. -/
def Primary (ts : List Token) (e : Ast) : Prop :=
  ∀ n, 4 * ts.length ≤ n → ∀ rest, primary n (ts ++ rest) = some (e, rest)

/-- The tokens read as `e` whatever tails at level `k` go on, provided what follows binds less
tightly than `j`. -/
def Reads (k j : ℕ) (ts : List Token) (e : Ast) : Prop :=
  ∀ rest r m, Stops j rest → (∀ n, m ≤ n → tails n k e rest = some r) →
    ∀ n, 4 * ts.length + m + 1 ≤ n → expr n k (ts ++ rest) = some r

/-- The tokens are all of an expression at level `k`. -/
def Operand (k : ℕ) (ts : List Token) (e : Ast) : Prop :=
  ∀ n, 4 * ts.length + 2 ≤ n → ∀ rest, Stops k rest → expr n k (ts ++ rest) = some (e, rest)

theorem Primary.reads {ts : List Token} {e : Ast} (h : Primary ts e) (k j : ℕ) :
    Reads k j ts e := by
  intro rest r m _ hr n hn
  obtain ⟨n, rfl⟩ : ∃ i, n = i + 1 := ⟨n - 1, by omega⟩
  rw [expr, h n (by omega) rest, Option.bind_some]
  exact hr n (by omega)

theorem Reads.mono {k i j : ℕ} {ts : List Token} {e : Ast} (h : Reads k i ts e) (hij : j ≤ i) :
    Reads k j ts e :=
  fun rest r m hs => h rest r m (hs.mono hij)

theorem Reads.operand {k j : ℕ} {ts : List Token} {e : Ast} (h : Reads k j ts e) (hk : k ≤ j) :
    Operand k ts e := by
  intro n hn rest hs
  exact h rest (e, rest) 1 (hs.mono hk) (fun i hi => tails_stops hi e hs) n hn

theorem Primary.operand {ts : List Token} {e : Ast} (h : Primary ts e) (k : ℕ) : Operand k ts e :=
  (h.reads k k).operand (Nat.le_refl k)

/-- An operator reads its left operand, then its right one at the next level: operators of one
level group to the left. -/
theorem Reads.bin {k j p : ℕ} {t : Token} {o : Op} {ts us : List Token} {l r : Ast}
    (hl : Reads k j ts l) (ht : tailOf t = some (p, .op o)) (hk : k ≤ p) (hj : p < j)
    (hr : Operand (p + 1) us r) : Reads k (p + 1) (ts ++ t :: us) (.bin o l r) := by
  intro rest x m hs hx n hn
  rw [List.append_assoc, List.cons_append]
  have hstop : Stops j (t :: (us ++ rest)) := by
    apply stops_cons
    intro q hq
    rw [ht, Option.mem_def, Option.some.injEq] at hq
    rw [← hq]
    exact hj
  apply hl (t :: (us ++ rest)) x (4 * us.length + m + 3) hstop
  · intro i hi
    obtain ⟨i, rfl⟩ : ∃ a, i = a + 1 := ⟨i - 1, by omega⟩
    rw [tails, ht]
    simp only [if_neg (Nat.not_lt.mpr hk)]
    rw [hr i (by omega) rest hs, Option.bind_some]
    exact hx i (by omega)
  · rw [List.length_append, List.length_cons] at hn
    omega

theorem Reads.like {k j : ℕ} {ts us vs : List Token} {e pattern esc : Ast}
    (he : Reads k j ts e) (hk : k ≤ 4) (hj : 4 < j) (hp : Operand 5 us pattern)
    (hesc : Operand 5 vs esc) :
    Reads k 5 (ts ++ Token.word "LIKE" :: (us ++ Token.word "ESCAPE" :: vs))
      (.like e pattern esc) := by
  intro rest x m hs hx n hn
  have htail : tailOf (.word "LIKE") = some (4, .like) := by simp [tailOf]
  rw [List.append_assoc, List.cons_append, List.append_assoc, List.cons_append]
  apply he _ x (4 * us.length + 4 * vs.length + m + 7)
    (stops_cons fun q hq => by
      rw [htail, Option.mem_def, Option.some.injEq] at hq
      rw [← hq]
      exact hj)
  · intro i hi
    obtain ⟨i, rfl⟩ : ∃ a, i = a + 1 := ⟨i - 1, by omega⟩
    rw [tails, htail]
    simp only [if_neg (Nat.not_lt.mpr hk)]
    rw [hp i (by omega) _ (stops_none (by simp [tailOf]))]
    simp only [Option.bind_eq_bind, Option.bind_some, expect_cons]
    rw [hesc i (by omega) rest hs, Option.bind_some]
    exact hx i (by omega)
  · simp only [List.length_append, List.length_cons] at hn
    omega

/-- The tokens are the expressions `es` with commas between them and a closing parenthesis. -/
def Listed (ts : List Token) (es : List Ast) : Prop :=
  ∀ n, 4 * ts.length ≤ n → ∀ rest, exprs n (ts ++ rest) = some (es, rest)

theorem Operand.listed {ts : List Token} {e : Ast} (h : Operand 0 ts e) :
    Listed (ts ++ [Token.sym ")"]) [e] := by
  intro n hn rest
  rw [List.length_append, List.length_singleton] at hn
  obtain ⟨n, rfl⟩ : ∃ i, n = i + 1 := ⟨n - 1, by omega⟩
  rw [exprs, List.append_assoc, List.singleton_append,
    h n (by omega) _ (stops_none (by simp [tailOf]))]
  rfl

theorem Operand.listed_cons {ts us : List Token} {e : Ast} {es : List Ast} (h : Operand 0 ts e)
    (hs : Listed us es) : Listed (ts ++ Token.sym "," :: us) (e :: es) := by
  intro n hn rest
  rw [List.length_append, List.length_cons] at hn
  obtain ⟨n, rfl⟩ : ∃ i, n = i + 1 := ⟨n - 1, by omega⟩
  rw [exprs, List.append_assoc, List.cons_append, h n (by omega) _ (stops_none (by simp [tailOf])),
    Option.bind_eq_bind, Option.bind_some]
  simp [hs n (by omega) rest]

theorem Reads.inList {k j : ℕ} {ts us : List Token} {e : Ast} {es : List Ast}
    (he : Reads k j ts e) (hk : k ≤ 4) (hj : 4 < j) (hs : Listed us es) :
    Reads k j (ts ++ Token.word "IN" :: Token.sym "(" :: us) (.inList e es) := by
  intro rest x m hstop hx n hn
  have htail : tailOf (.word "IN") = some (4, .inList) := by simp [tailOf]
  rw [List.append_assoc, List.cons_append, List.cons_append]
  apply he _ x (4 * us.length + m + 3)
    (stops_cons fun q hq => by
      rw [htail, Option.mem_def, Option.some.injEq] at hq
      rw [← hq]
      exact hj)
  · intro i hi
    obtain ⟨i, rfl⟩ : ∃ a, i = a + 1 := ⟨i - 1, by omega⟩
    rw [tails, htail]
    simp only [if_neg (Nat.not_lt.mpr hk), Option.bind_eq_bind, expect_cons, Option.bind_some]
    rw [hs i (by omega) rest, Option.bind_some]
    exact hx i (by omega)
  · simp only [List.length_append, List.length_cons] at hn
    omega

theorem primary_bound (v : Value) : Primary [.bound v] (.lit v) := by
  intro n hn rest
  obtain ⟨n, rfl⟩ : ∃ i, n = i + 1 := ⟨n - 1, by rw [List.length_singleton] at hn; omega⟩
  rfl

theorem primary_str (s : String) : Primary [.str s] (.lit (.text s)) := by
  intro n hn rest
  obtain ⟨n, rfl⟩ : ∃ i, n = i + 1 := ⟨n - 1, by rw [List.length_singleton] at hn; omega⟩
  rfl

theorem Operand.paren {ts : List Token} {e : Ast} (h : Operand 0 ts e) :
    Primary (Token.sym "(" :: ts ++ [Token.sym ")"]) e := by
  intro n hn rest
  rw [List.length_append, List.length_cons, List.length_singleton] at hn
  obtain ⟨n, rfl⟩ : ∃ i, n = i + 1 := ⟨n - 1, by omega⟩
  rw [List.append_assoc, List.singleton_append, List.cons_append, primary, if_pos rfl,
    h n (by omega) _ (stops_none (by simp [tailOf])), Option.bind_eq_bind, Option.bind_some]
  rfl

theorem primary_not (n : ℕ) (ts : List Token) :
    primary (n + 1) (.word "NOT" :: ts) = (expr n 4 ts).bind fun e => some (.not e.1, e.2) := by
  rw [primary.eq_def]
  rfl

theorem primary_exists (n : ℕ) (ts : List Token) :
    primary (n + 1) (.word "EXISTS" :: .sym "(" :: .word "SELECT" :: .word "1" :: .word "FROM" ::
        ts) =
      (tables n ts).bind fun rows =>
        (expect [.sym ")"] rows.2).bind fun ts => some (.anyRow rows.1.1 rows.1.2, ts) := by
  rw [primary.eq_def]
  rfl

theorem tables_where (n : ℕ) (t a : String) (ts : List Token) :
    tables (n + 1) (Token.word t :: Token.word a :: Token.word "WHERE" :: ts) =
      (expr n 0 ts).map fun e => (([(t, a)], [e.1]), e.2) := by
  rw [tables.eq_def]
  rfl

theorem primary_case (n : ℕ) (ts : List Token) :
    primary (n + 1) (Token.word "CASE" :: Token.word "WHEN" :: ts) =
      (expr n 0 ts).bind fun c => (expect [.word "THEN"] c.2).bind fun ts =>
        (expr n 0 ts).bind fun a => (expect [.word "ELSE"] a.2).bind fun ts =>
          (expr n 0 ts).bind fun b => (expect [.word "END"] b.2).bind fun ts =>
            some (.ite c.1 a.1 b.1, ts) := by
  rw [primary.eq_def]
  rfl

/-- A word that is a name: no keyword an operand begins with, and no number. -/
def isName (w : String) : Bool :=
  w ≠ "NOT" && w ≠ "EXISTS" && w ≠ "CASE" && (number w).isNone

theorem primary_name (n : ℕ) {w : String} (hw : isName w = true) (s : String) (ts : List Token) :
    primary (n + 1) (Token.word w :: Token.sym s :: ts) =
      if s = "(" then (exprs n ts).map fun es => (.call w es.1, es.2)
      else if s = "." then
        match ts with
        | Token.word c :: ts => some (.col w c, ts)
        | _ => none
      else none := by
  simp only [isName, Bool.and_eq_true, decide_eq_true_eq, Option.isNone_iff_eq_none] at hw
  rw [primary.eq_def]
  simp only [if_neg hw.1.1.1, if_neg hw.1.1.2, if_neg hw.1.2, hw.2]

theorem primary_num (n : ℕ) {w : String} {i : ℕ} (hw : w ≠ "NOT" ∧ w ≠ "EXISTS" ∧ w ≠ "CASE")
    (hi : number w = some i) (ts : List Token) :
    primary (n + 1) (Token.word w :: ts) = some (.lit (.int i), ts) := by
  rw [primary.eq_def]
  simp only [if_neg hw.1, if_neg hw.2.1, if_neg hw.2.2, hi]

/-- `NOT` takes comparisons with it and stops at `AND`. -/
theorem Operand.reads_not {ts : List Token} {e : Ast} (h : Operand 4 ts e) (k : ℕ) :
    Reads k 4 (Token.word "NOT" :: ts) (.not e) := by
  intro rest x m hs hx n hn
  rw [List.length_cons] at hn
  obtain ⟨n, rfl⟩ : ∃ i, n = i + 2 := ⟨n - 2, by omega⟩
  rw [List.cons_append, expr, primary_not, h n (by omega) rest hs]
  exact hx (n + 1) (by omega)

theorem primary_number {w : String} {i : ℕ} (hw : w ≠ "NOT" ∧ w ≠ "EXISTS" ∧ w ≠ "CASE")
    (hi : number w = some i) : Primary [.word w] (.lit (.int i)) := by
  intro n hn rest
  obtain ⟨n, rfl⟩ : ∃ i, n = i + 1 := ⟨n - 1, by rw [List.length_singleton] at hn; omega⟩
  exact primary_num n hw hi rest

theorem primary_col {w : String} (hw : isName w = true) (c : String) :
    Primary [.word w, .sym ".", .word c] (.col w c) := by
  intro n hn rest
  obtain ⟨n, rfl⟩ : ∃ i, n = i + 1 :=
    ⟨n - 1, by rw [List.length_cons, List.length_cons, List.length_singleton] at hn; omega⟩
  rw [List.cons_append, List.cons_append, primary_name n hw, if_neg (by decide), if_pos rfl]
  rfl

theorem Listed.call {w : String} (hw : isName w = true) {ts : List Token} {es : List Ast}
    (h : Listed ts es) : Primary (Token.word w :: Token.sym "(" :: ts) (.call w es) := by
  intro n hn rest
  rw [List.length_cons, List.length_cons] at hn
  obtain ⟨n, rfl⟩ : ∃ i, n = i + 1 := ⟨n - 1, by omega⟩
  rw [List.cons_append, List.cons_append, primary_name n hw, if_pos rfl, h n (by omega) rest]
  rfl

theorem Operand.ite {ts us vs : List Token} {c a b : Ast} (hc : Operand 0 ts c)
    (ha : Operand 0 us a) (hb : Operand 0 vs b) :
    Primary (.word "CASE" :: .word "WHEN" :: (ts ++ Token.word "THEN" :: (us ++ Token.word "ELSE" ::
      (vs ++ [Token.word "END"])))) (.ite c a b) := by
  intro n hn rest
  simp only [List.length_cons, List.length_append, List.length_nil] at hn
  obtain ⟨n, rfl⟩ : ∃ i, n = i + 1 := ⟨n - 1, by omega⟩
  simp only [List.cons_append, List.append_assoc, List.nil_append]
  rw [primary_case, hc n (by omega) _ (stops_none (by simp [tailOf])), Option.bind_some,
    expect_cons, Option.bind_some, ha n (by omega) _ (stops_none (by simp [tailOf])),
    Option.bind_some, expect_cons, Option.bind_some,
    hb n (by omega) _ (stops_none (by simp [tailOf])), Option.bind_some, expect_cons,
    Option.bind_some]

/-- What stands before the condition of an `EXISTS` over one table. -/
def existsFrom (t a : String) : List Token :=
  [.word "EXISTS", .sym "(", .word "SELECT", .word "1", .word "FROM", .word t, .word a]

theorem Operand.exists {ts : List Token} {e : Ast} (t a : String) (h : Operand 0 ts e) :
    Primary (existsFrom t a ++ Token.word "WHERE" :: (ts ++ [Token.sym ")"]))
      (.anyRow [(t, a)] [e]) := by
  intro n hn rest
  simp only [existsFrom, List.length_cons, List.length_append, List.length_nil] at hn
  obtain ⟨n, rfl⟩ : ∃ i, n = i + 2 := ⟨n - 2, by omega⟩
  simp only [existsFrom, List.cons_append, List.append_assoc, List.nil_append]
  rw [primary_exists, tables_where, h n (by omega) _ (stops_none (by simp [tailOf]))]
  simp only [Option.map_some, Option.bind_some, expect_cons]

theorem Operand.exists_join {ts us : List Token} {on e : Ast} (t a t' a' : String)
    (hon : Operand 0 ts on) (h : Operand 0 us e) :
    Primary (existsFrom t a ++
      Token.word "JOIN" :: Token.word t' :: Token.word a' :: Token.word "ON" ::
        (ts ++ Token.word "WHERE" :: (us ++ [Token.sym ")"])))
      (.anyRow [(t, a), (t', a')] [on, e]) := by
  intro n hn rest
  simp only [existsFrom, List.length_cons, List.length_append, List.length_nil] at hn
  obtain ⟨n, rfl⟩ : ∃ i, n = i + 2 := ⟨n - 2, by omega⟩
  simp only [existsFrom, List.cons_append, List.append_assoc, List.nil_append]
  rw [primary_exists, tables, if_neg (by decide), if_pos rfl]
  simp only [Option.bind_eq_bind, expect_cons, Option.bind_some]
  rw [hon n (by omega) _ (stops_none (by simp [tailOf])), Option.bind_some, expect_cons,
    Option.bind_some, h n (by omega) _ (stops_none (by simp [tailOf]))]
  simp only [Option.bind_some, expect_cons]

theorem Operand.parse {ts : List Token} {e : Ast} (h : Operand 0 ts e) : parse ts = some e := by
  have hread := h (4 * ts.length + 2) (Nat.le_refl _) [] (stops_nil 0)
  rw [List.append_nil] at hread
  rw [Sql.parse, hread]

/-- The tokens may stand on either side of `AND` and `OR` and under `NOT`. -/
def Clause (ts : List Token) (e : Ast) : Prop := ∀ k, k ≤ 4 → Reads k 5 ts e

theorem Primary.clause {ts : List Token} {e : Ast} (h : Primary ts e) : Clause ts e :=
  fun k _ => h.reads k 5

theorem Clause.operand {ts : List Token} {e : Ast} (h : Clause ts e) {k : ℕ} (hk : k ≤ 4) :
    Operand k ts e :=
  (h k hk).operand (by omega)

/-- A comparison of two operands. -/
theorem Primary.compare {ts us : List Token} {l r : Ast} {t : Token} {p : ℕ} {o : Op}
    (hl : Primary ts l) (ht : tailOf t = some (p, .op o)) (hp : 4 ≤ p) (hr : Primary us r) :
    Clause (ts ++ t :: us) (.bin o l r) :=
  fun k hk =>
    ((hl.reads k (p + 1)).bin ht (by omega) (by omega) (hr.operand (p + 1))).mono (by omega)

theorem Primary.like (esc : String) {ts us : List Token} {e pattern : Ast} (he : Primary ts e)
    (hp : Operand 5 us pattern) :
    Clause (ts ++ Token.word "LIKE" :: (us ++ Token.word "ESCAPE" :: [Token.str esc]))
      (.like e pattern (.lit (.text esc))) :=
  fun k hk => (he.reads k 5).like hk (by omega) hp ((primary_str esc).operand 5)

theorem Primary.inList {ts us : List Token} {e : Ast} {es : List Ast} (he : Primary ts e)
    (hs : Listed us es) : Clause (ts ++ Token.word "IN" :: Token.sym "(" :: us) (.inList e es) :=
  fun k hk => (he.reads k 5).inList hk (by omega) hs

theorem tailOf_and : tailOf (.word "AND") = some (2, .op .and) := by simp [tailOf]

theorem tailOf_or : tailOf (.word "OR") = some (1, .op .or) := by simp [tailOf]

theorem tailOf_eq : tailOf (.sym "=") = some (4, .op .eq) := by simp [tailOf]

theorem tailOf_add : tailOf (.sym "+") = some (7, .op .add) := by simp [tailOf]

theorem tailOf_cat : tailOf (.sym "||") = some (8, .op .cat) := by simp [tailOf]

theorem Clause.and {ts us : List Token} {l r : Ast} (hl : Clause ts l) (hr : Clause us r) :
    Reads 0 3 (ts ++ Token.word "AND" :: us) (.bin .and l r) :=
  (hl 0 (by omega)).bin tailOf_and (by omega) (by omega) (hr.operand (by omega))

theorem Clause.or {ts us : List Token} {l r : Ast} (hl : Clause ts l) (hr : Clause us r) :
    Reads 0 2 (ts ++ Token.word "OR" :: us) (.bin .or l r) :=
  (hl 0 (by omega)).bin tailOf_or (by omega) (by omega) (hr.operand (by omega))

/-- Operators of one level between operands group to the left. -/
theorem Reads.chain {k p : ℕ} {t : Token} {o : Op} (ht : tailOf t = some (p, .op o)) (hk : k ≤ p)
    {α : Type} (tokens : α → List Token) (ast : α → Ast) (xs : List α)
    (hxs : ∀ x ∈ xs, Primary (tokens x) (ast x)) {ts : List Token} {e : Ast}
    (he : Reads k (p + 1) ts e) :
    Reads k (p + 1) (ts ++ xs.flatMap fun x => t :: tokens x)
      (xs.foldl (fun l x => .bin o l (ast x)) e) := by
  induction xs generalizing ts e with
  | nil =>
    rw [List.flatMap_nil, List.append_nil]
    exact he
  | cons x xs ih =>
    have hx := hxs x List.mem_cons_self
    have hnext := ih (fun y hy => hxs y (List.mem_cons_of_mem x hy))
      (he.bin ht hk (Nat.lt_succ_self p) (hx.operand (p + 1)))
    rw [List.append_assoc] at hnext
    exact hnext

end EtvStation.Lib.Sql
