import Mathlib.Data.List.Infix

/-! `LIKE` with an escape character: `%` matches any run of characters, `_` any one, and every
other character itself with the case of ASCII letters ignored. -/
namespace EtvStation.Lib.Like

inductive Piece
  | run
  | one
  | lit (c : Char)
  deriving DecidableEq, Repr

/-- Read a pattern. One that ends in the escape character matches nothing. -/
def pieces (esc : Char) : List Char → Option (List Piece)
  | [] => some []
  | c :: rest =>
    if c = esc then
      match rest with
      | [] => none
      | d :: rest => (pieces esc rest).map (.lit d :: ·)
    else
      (pieces esc rest).map ((if c = '%' then .run else if c = '_' then .one else .lit c) :: ·)

theorem pieces_esc (esc d : Char) (rest : List Char) :
    pieces esc (esc :: d :: rest) = (pieces esc rest).map (.lit d :: ·) := by
  simp [pieces]

theorem pieces_ne {esc c : Char} (h : c ≠ esc) (rest : List Char) :
    pieces esc (c :: rest) =
      (pieces esc rest).map
        ((if c = '%' then .run else if c = '_' then .one else .lit c) :: ·) := by
  cases rest <;> simp [pieces, h]

def run : List Piece → List Char → Bool
  | [], t => t.isEmpty
  | .run :: ps, t => t.tails.any (run ps)
  | .one :: ps, t => t.tail.length < t.length && run ps t.tail
  | .lit c :: ps, t => (t.head?.map Char.toLower == some c.toLower) && run ps t.tail

def holds (esc : Char) (pattern text : List Char) : Bool :=
  ((pieces esc pattern).map fun ps => run ps text).getD false

/-- Put the escape character before every character a pattern reads as more than itself. -/
def escape (esc : Char) (s : List Char) : List Char :=
  s.flatMap fun c => if c = esc ∨ c = '%' ∨ c = '_' then [esc, c] else [c]

theorem pieces_escape (esc : Char) (s : List Char) (rest : List Char) :
    pieces esc (escape esc s ++ rest) = (pieces esc rest).map (s.map .lit ++ ·) := by
  induction s with
  | nil => simp [escape]
  | cons c s ih =>
    have hcons : escape esc (c :: s) ++ rest =
        (if c = esc ∨ c = '%' ∨ c = '_' then [esc, c] else [c]) ++ (escape esc s ++ rest) := by
      simp [escape]
    rw [hcons]
    by_cases hc : c = esc ∨ c = '%' ∨ c = '_'
    · rw [if_pos hc, List.cons_append, List.cons_append, List.nil_append, pieces_esc, ih,
        Option.map_map]
      rfl
    · rw [if_neg hc, List.cons_append, List.nil_append, pieces_ne fun h => hc (Or.inl h), ih,
        if_neg fun h => hc (Or.inr (Or.inl h)), if_neg fun h => hc (Or.inr (Or.inr h)),
        Option.map_map]
      rfl

/-- Literal pieces match the text that opens with them. -/
theorem run_lits (s : List Char) (ps : List Piece) (t : List Char) :
    run (s.map .lit ++ ps) t = true ↔
      ∃ u v, t = u ++ v ∧ u.map Char.toLower = s.map Char.toLower ∧ run ps v = true := by
  induction s generalizing t with
  | nil =>
    constructor
    · intro h
      exact ⟨[], t, rfl, rfl, h⟩
    · intro h
      obtain ⟨u, v, rfl, hu, hv⟩ := h
      rw [List.map_eq_nil_iff.mp hu]
      exact hv
  | cons c s ih =>
    cases t with
    | nil => simp [run]
    | cons d t =>
      simp only [List.map_cons, List.cons_append, run, List.head?_cons, Option.map_some,
        List.tail_cons, Bool.and_eq_true, beq_iff_eq, Option.some.injEq, ih]
      constructor
      · intro h
        obtain ⟨hc, u, v, rfl, hu, hv⟩ := h
        exact ⟨d :: u, v, rfl, by rw [List.map_cons, hc, hu], hv⟩
      · intro h
        obtain ⟨u, v, ht, hu, hv⟩ := h
        cases u with
        | nil => simp at hu
        | cons e u =>
          rw [List.cons_append, List.cons.injEq] at ht
          rw [List.map_cons, List.cons.injEq] at hu
          exact ⟨ht.1 ▸ hu.1, u, v, ht.2, hu.2, hv⟩

theorem run_any (ps : List Piece) (t : List Char) :
    run (.run :: ps) t = true ↔ ∃ u v, t = u ++ v ∧ run ps v = true := by
  rw [run, List.any_eq_true]
  constructor
  · intro h
    obtain ⟨v, hv, hr⟩ := h
    obtain ⟨u, hu⟩ := (List.mem_tails v t).mp hv
    exact ⟨u, v, hu.symm, hr⟩
  · intro h
    obtain ⟨u, v, rfl, hr⟩ := h
    exact ⟨v, (List.mem_tails v _).mpr (List.suffix_append u v), hr⟩

theorem run_all (t : List Char) : run [.run] t = true :=
  (run_any [] t).mpr ⟨t, [], (List.append_nil t).symm, rfl⟩

/-- Whether `s` opens the text, the case of ASCII letters ignored. -/
def opens (s t : List Char) : Bool := decide (s.map Char.toLower <+: t.map Char.toLower)

/-- Whether `s` occurs in the text, the case of ASCII letters ignored. -/
def occurs (s t : List Char) : Bool := decide (s.map Char.toLower <:+: t.map Char.toLower)

private theorem map_prefix {s t : List Char} (f : Char → Char) :
    s.map f <+: t.map f ↔ ∃ u v, t = u ++ v ∧ u.map f = s.map f := by
  constructor
  · intro h
    obtain ⟨w, hw⟩ := h
    obtain ⟨u, v, rfl, hu, hv⟩ := List.map_eq_append_iff.mp hw.symm
    exact ⟨u, v, rfl, hu⟩
  · intro h
    obtain ⟨u, v, rfl, hu⟩ := h
    rw [List.map_append, hu]
    exact List.prefix_append _ _

/-- An escaped text followed by `%` matches exactly the texts it opens. -/
theorem holds_opens {esc : Char} (hesc : esc ≠ '%') (s t : List Char) :
    holds esc (escape esc s ++ ['%']) t = opens s t := by
  have hp : pieces esc (escape esc s ++ ['%']) = some (s.map .lit ++ [.run]) := by
    rw [pieces_escape]
    simp [pieces, hesc.symm]
  rw [holds, hp, Option.map_some, Option.getD_some, opens, Bool.eq_iff_iff, decide_eq_true_iff,
    run_lits, map_prefix]
  constructor
  · intro h
    obtain ⟨u, v, ht, hu, -⟩ := h
    exact ⟨u, v, ht, hu⟩
  · intro h
    obtain ⟨u, v, ht, hu⟩ := h
    exact ⟨u, v, ht, hu, run_all v⟩

/-- An escaped text between two `%` matches exactly the texts it occurs in. -/
theorem holds_occurs {esc : Char} (hesc : esc ≠ '%') (s t : List Char) :
    holds esc ('%' :: (escape esc s ++ ['%'])) t = occurs s t := by
  have hp : pieces esc ('%' :: (escape esc s ++ ['%'])) = some (.run :: (s.map .lit ++ [.run])) := by
    rw [pieces_ne hesc.symm, pieces_escape]
    simp [pieces, hesc.symm]
  rw [holds, hp, Option.map_some, Option.getD_some, occurs, Bool.eq_iff_iff, decide_eq_true_iff,
    run_any]
  constructor
  · intro h
    obtain ⟨u, v, rfl, hv⟩ := h
    obtain ⟨x, y, rfl, hx, -⟩ := (run_lits s _ v).mp hv
    rw [List.map_append, List.map_append, hx]
    exact ⟨u.map Char.toLower, y.map Char.toLower, by rw [List.append_assoc]⟩
  · intro h
    obtain ⟨a, b, hab⟩ := h
    rw [List.append_assoc] at hab
    obtain ⟨u, v, rfl, -, hv⟩ := List.map_eq_append_iff.mp hab.symm
    obtain ⟨x, y, rfl, hx, -⟩ := List.map_eq_append_iff.mp hv
    exact ⟨u, x ++ y, rfl, (run_lits s _ _).mpr ⟨x, y, rfl, hx, run_all y⟩⟩

end EtvStation.Lib.Like
