import Mathlib.Data.List.Sort
import EtvStation.Lib.Sql.Values

/-! `ORDER BY`: the keys a clause names, how they compare two rows, and what a statement may answer
with. Rows no two of which compare as equal have one answer. -/
namespace EtvStation.Lib.Sql

/-- The order `ORDER BY` puts values in: nulls first, then numbers, then texts. -/
def Value.sortCompare : Value → Value → Ordering
  | .null, .null => .eq
  | .null, _ => .lt
  | _, .null => .gt
  | .int a, .int b => compare a b
  | .int _, .text _ => .lt
  | .text _, .int _ => .gt
  | .text a, .text b => compare a b

instance : Std.OrientedCmp Value.sortCompare where
  eq_swap {a b} := by
    cases a <;> cases b <;> first
      | rfl
      | exact Std.OrientedOrd.eq_swap

instance : Std.TransCmp Value.sortCompare where
  isLE_trans {a b c} hab hbc := by
    cases a with
    | null => cases c <;> rfl
    | int x =>
      cases b with
      | null => cases hab
      | int y =>
        cases c with
        | null => cases hbc
        | int z => exact Std.TransOrd.isLE_trans hab hbc
        | text z => rfl
      | text y =>
        cases c with
        | null => cases hbc
        | int z => cases hbc
        | text z => rfl
    | text x =>
      cases b with
      | null => cases hab
      | int y => cases hab
      | text y =>
        cases c with
        | null => cases hbc
        | int z => cases hbc
        | text z => exact Std.TransOrd.isLE_trans hab hbc

theorem Value.eq_of_sortCompare {a b : Value} (h : a.sortCompare b = .eq) : a = b := by
  cases a with
  | null => cases b with
    | null => rfl
    | _ => cases h
  | int x => cases b with
    | int y => rw [Std.LawfulEqOrd.eq_of_compare h]
    | _ => cases h
  | text x => cases b with
    | text y => rw [Std.LawfulEqOrd.eq_of_compare h]
    | _ => cases h

inductive Direction
  | asc
  | desc
  deriving DecidableEq, Repr

/-- One of the expressions between the commas of a clause. -/
inductive SortKey
  /-- `table.col IS NULL`. -/
  | isNull (col : String)
  | column (col : String) (dir : Direction)
  deriving DecidableEq, Repr

/-! ## Reading a clause -/

def SortKey.read (table : String) : List Token → Option SortKey
  | [.word t, .sym d, .word c, .word w] =>
    if t ≠ table ∨ d ≠ "." then none
    else if w = "ASC" then some (.column c .asc)
    else if w = "DESC" then some (.column c .desc)
    else none
  | [.word t, .sym d, .word c, .word i, .word n] =>
    if t = table ∧ d = "." ∧ i = "IS" ∧ n = "NULL" then some (.isNull c) else none
  | _ => none

/-- The keys of a clause over the rows of one table, when it is well formed. -/
def readOrder (table sql : String) : Option (List SortKey) :=
  (lex sql).bind fun ts => (ts.splitOn (.sym ",")).mapM (SortKey.read table)

variable {table f g : String} {ks ls : List SortKey}

theorem readOrder_key {ts : List Token} {k : SortKey} (hlex : lex f = some ts)
    (hcomma : .sym "," ∉ ts) (hread : SortKey.read table ts = some k) :
    readOrder table f = some [k] := by
  rw [readOrder, hlex, Option.bind_some, List.splitOn_eq_singleton hcomma, List.mapM_cons, hread]
  rfl

/-- Two clauses with a comma between them are one clause. -/
theorem readOrder_comma (hf : readOrder table f = some ks) (hg : readOrder table g = some ls) :
    readOrder table (f ++ ", " ++ g) = some (ks ++ ls) := by
  obtain ⟨ts, hts, hks⟩ := Option.bind_eq_some_iff.mp hf
  obtain ⟨us, hus, hls⟩ := Option.bind_eq_some_iff.mp hg
  rw [readOrder, lex_comma hts hus, Option.bind_some, List.splitOn_append_cons_self,
    List.mapM_append, hks, hls]
  rfl

/-! ## Comparing rows -/

section compare

variable {ρ : Type} (cell : ρ → String → Value)

def Direction.compare : Direction → Value → Value → Ordering
  | asc, x, y => x.sortCompare y
  | desc, x, y => y.sortCompare x

def SortKey.compare (k : SortKey) (a b : ρ) : Ordering :=
  match k with
  | .isNull c =>
    (Value.ofBool (cell a c = .null)).sortCompare (Value.ofBool (cell b c = .null))
  | .column c dir => dir.compare (cell a c) (cell b c)

def compareRows : List SortKey → ρ → ρ → Ordering
  | [] => fun _ _ => .eq
  | k :: ks => compareLex (k.compare cell) (compareRows ks)

/-- Rows are compared as values read off them are. -/
theorem transCmp_read (v : ρ → Value) :
    Std.TransCmp fun a b => (v a).sortCompare (v b) where
  eq_swap {a b} := by
    have h : (v a).sortCompare (v b) = ((v b).sortCompare (v a)).swap := Std.OrientedCmp.eq_swap
    exact h
  isLE_trans {a b c} hab hbc := by
    have h : ((v a).sortCompare (v c)).isLE := Std.TransCmp.isLE_trans hab hbc
    exact h

instance (k : SortKey) : Std.TransCmp (k.compare cell) := by
  cases k with
  | isNull c => exact transCmp_read fun a => Value.ofBool (cell a c = .null)
  | column c dir =>
    have h := transCmp_read fun a => cell a c
    cases dir with
    | asc => exact h
    | desc => exact @Std.TransCmp.opposite _ _ h

instance instTransCmpCompareRows (ks : List SortKey) : Std.TransCmp (compareRows cell ks) := by
  induction ks with
  | nil => exact { eq_swap := rfl, isLE_trans := fun _ _ => rfl }
  | cons k ks ih => exact inferInstanceAs (Std.TransCmp (compareLex _ _))

/-- Rows that no key tells apart agree on every column that is a key. -/
theorem cell_eq_of_compareRows {a b : ρ} (h : compareRows cell ks a b = .eq) {c : String}
    {dir : Direction} (hk : .column c dir ∈ ks) : cell a c = cell b c := by
  induction ks with
  | nil => cases hk
  | cons k ks ih =>
    obtain ⟨hhead, htail⟩ := compareLex_eq_eq.mp h
    obtain rfl | hk := List.mem_cons.mp hk
    · cases dir with
      | asc => exact Value.eq_of_sortCompare hhead
      | desc => exact (Value.eq_of_sortCompare hhead).symm
    · exact ih htail hk

/-- A column after the test for null on it has its nulls last whatever its direction. -/
theorem isLE_nullsLast {a b : ρ} {c : String} {dir : Direction}
    (h : (compareRows cell (.isNull c :: .column c dir :: ks) a b).isLE) :
    (cell a c ≠ .null ∧ cell b c = .null) ∨
      (cell a c ≠ .null ∧ cell b c ≠ .null ∧ dir.compare (cell a c) (cell b c) = .lt) ∨
      (cell a c = cell b c ∧ (compareRows cell ks a b).isLE) := by
  have h : (((Value.ofBool (cell a c = .null)).sortCompare (Value.ofBool (cell b c = .null))).then
      ((dir.compare (cell a c) (cell b c)).then (compareRows cell ks a b))).isLE := h
  by_cases ha : cell a c = .null
  · by_cases hb : cell b c = .null
    · rw [ha, hb] at h ⊢
      refine Or.inr (Or.inr ⟨rfl, ?_⟩)
      cases dir <;> exact h
    · rw [decide_eq_true ha, decide_eq_false hb] at h
      cases h
  · by_cases hb : cell b c = .null
    · exact Or.inl ⟨ha, hb⟩
    · rw [decide_eq_false ha, decide_eq_false hb] at h
      have h : ((dir.compare (cell a c) (cell b c)).then (compareRows cell ks a b)).isLE := h
      obtain hlt | ⟨heq, hrest⟩ := Ordering.isLE_then_iff_or.mp h
      · exact Or.inr (Or.inl ⟨ha, hb, hlt⟩)
      · refine Or.inr (Or.inr ⟨?_, hrest⟩)
        cases dir with
        | asc => exact Value.eq_of_sortCompare heq
        | desc => exact (Value.eq_of_sortCompare heq).symm

/-- What a statement may answer with: the rows it selects, none before one that goes first. -/
structure Ordered (ks : List SortKey) (rows out : List ρ) : Prop where
  perm : out.Perm rows
  sorted : out.Pairwise fun a b => (compareRows cell ks a b).isLE

variable {cell} {rows out out' : List ρ}

/-- Keys that tell the rows apart leave one answer. -/
theorem Ordered.unique (hcell : ∀ a ∈ rows, ∀ b ∈ rows, compareRows cell ks a b = .eq → a = b)
    (h : Ordered cell ks rows out) (h' : Ordered cell ks rows out') : out = out' := by
  apply (h.perm.trans h'.perm.symm).eq_of_pairwise _ h.sorted h'.sorted
  intro a b ha hb hab hba
  apply hcell a (h.perm.mem_iff.mp ha) b (h'.perm.mem_iff.mp hb)
  exact Std.OrientedCmp.isLE_antisymm hab hba

/-- An answer without some of its rows is an answer over the rows without these. -/
theorem Ordered.filter (h : Ordered cell ks rows out) (p : ρ → Bool) :
    Ordered cell ks (rows.filter p) (out.filter p) where
  perm := h.perm.filter p
  sorted := h.sorted.filter p

end compare

/-- A way to sort. Where the keys tie, it may answer in any order. -/
structure Sorter (ρ : Type) where
  sort : (ρ → String → Value) → List SortKey → List ρ → List ρ
  ordered : ∀ cell ks rows, Ordered cell ks rows (sort cell ks rows)

/-- Merging is such a way. -/
def Sorter.merge (ρ : Type) : Sorter ρ where
  sort cell ks rows := rows.mergeSort fun a b => (compareRows cell ks a b).isLE
  ordered cell ks rows :=
    { perm := List.mergeSort_perm rows _
      sorted := by
        apply List.pairwise_mergeSort
        · intro a b c
          exact Std.TransCmp.isLE_trans
        · intro a b
          have hswap : compareRows cell ks b a = (compareRows cell ks a b).swap :=
            Std.OrientedCmp.eq_swap
          rw [hswap]
          cases compareRows cell ks a b <;> rfl }

end EtvStation.Lib.Sql
