import EtvStation.Resolve.Ordering
import Mathlib.Algebra.BigOperators.Group.Finset.Basic
import Mathlib.Algebra.BigOperators.Intervals
import Mathlib.Data.Finset.Prod

/-! The conflicting pairs of an order, every pair looked at, and the count the adjacency pass
answers with: its early exits leave no pair out. -/
namespace EtvStation

section Pairs

variable (items : List ItemKeys) (limits : List Limits) (preceding : List ItemKeys)
  (order : List ℕ)

def keysOf (p : ℕ) : ItemKeys := items.getD p ⟨"", [], 0⟩

def limitsOf (p : ℕ) : Limits := limits.getD p {}

/-- What plays from position `i` up to position `j`. -/
def elapsedBetween (i j : ℕ) : ℕ :=
  (((order.drop i).take (j - i)).map fun p => (keysOf items p).duration).sum

/-- The items at positions `i` and `j` of the order conflict under the stricter of their
limits. -/
def Clash (i j : ℕ) : Prop :=
  conflict (keysOf items (order.getD i 0)) (keysOf items (order.getD j 0))
    (limitsOf limits (order.getD i 0)) (limitsOf limits (order.getD j 0))
    ⟨j - i, elapsedBetween items order i j⟩

/-- The item at position `i` conflicts, under its own limits, with the item `k` before the last
of the tail. -/
def TailClash (i k : ℕ) : Prop :=
  conflict (keysOf items (order.getD i 0)) (preceding.reverse.getD k ⟨"", [], 0⟩)
    (limitsOf limits (order.getD i 0)) {}
    ⟨i + (k + 1), elapsedBetween items order 0 i +
      ((preceding.reverse.take (k + 1)).map ItemKeys.duration).sum⟩

instance (i j : ℕ) : Decidable (Clash items limits order i j) :=
  inferInstanceAs (Decidable (_ = true))

instance (i k : ℕ) : Decidable (TailClash items limits preceding order i k) :=
  inferInstanceAs (Decidable (_ = true))

/-- Every conflicting pair of the order, and of the order and the tail. -/
def clashCount : ℕ :=
  ((Finset.range order.length ×ˢ Finset.range order.length).filter fun p =>
      p.1 < p.2 ∧ Clash items limits order p.1 p.2).card +
    ((Finset.range order.length ×ˢ Finset.range preceding.length).filter fun p =>
      TailClash items limits preceding order p.1 p.2).card

end Pairs

theorem sharesGroupWith_comm (a b : ItemKeys) : a.sharesGroupWith b = b.sharesGroupWith a := by
  have hany : a.group.any (fun v => b.group.contains v) =
      b.group.any fun v => a.group.contains v := by
    rw [Bool.eq_iff_iff]
    simp only [List.any_eq_true, List.contains_iff_mem]
    constructor
    · intro ⟨v, ha, hb⟩
      exact ⟨v, hb, ha⟩
    · intro ⟨v, hb, ha⟩
      exact ⟨v, ha, hb⟩
  unfold ItemKeys.sharesGroupWith
  rw [hany, Bool.and_comm (!a.group.isEmpty)]

theorem conflict_comm (a b : ItemKeys) (la lb : Limits) (d : Distance) :
    conflict a b la lb d = conflict b a lb la d := by
  have hid : (a.id == b.id) = (b.id == a.id) := BEq.comm
  unfold conflict
  rw [hid, Bool.or_comm (gapConflict la.noRepeat d), max_comm, sharesGroupWith_comm]

/-- A reach no wider than another. -/
def Reach.Within (r bound : Reach) : Prop :=
  r.positions ≤ bound.positions ∧ r.duration ≤ bound.duration

/-- A gap whose reach the walk has left behind is no conflict. -/
theorem gapConflict_of_exhausted {l : Limits} {bound : Reach} (hl : l.reach.Within bound)
    {d : Distance} (hd : axesExhausted d bound = true) : gapConflict l.noRepeat d = false := by
  obtain ⟨hpos, hdur⟩ := hl
  simp only [axesExhausted, gt_iff_lt, Bool.and_eq_true, decide_eq_true_eq, Bool.or_eq_true,
    beq_iff_eq] at hd
  unfold Limits.reach at hpos hdur
  cases hgap : l.noRepeat with
  | positions n =>
    rw [hgap] at hpos
    have hn : n ≤ bound.positions := le_trans (le_max_left _ _) hpos
    simp only [gapConflict, Bool.and_eq_false_iff, decide_eq_false_iff_not]
    omega
  | duration within =>
    rw [hgap] at hdur
    have hw : within ≤ bound.duration := hdur
    simp only [gapConflict, Bool.and_eq_false_iff, bne_eq_false_iff_eq, decide_eq_false_iff_not]
    omega

theorem Limits.separate_le (l : Limits) : l.separate ≤ l.reach.positions := by
  unfold Limits.reach
  cases l.noRepeat with
  | positions n => exact le_max_right _ _
  | duration d => exact le_rfl

/-- Past the reach of both items nothing conflicts. -/
theorem conflict_of_exhausted {la lb : Limits} {bound : Reach} (ha : la.reach.Within bound)
    (hb : lb.reach.Within bound) {d : Distance} (hd : axesExhausted d bound = true)
    (a b : ItemKeys) : conflict a b la lb d = false := by
  have hga := gapConflict_of_exhausted ha hd
  have hgb := gapConflict_of_exhausted hb hd
  have hsa := le_trans la.separate_le ha.1
  have hsb := le_trans lb.separate_le hb.1
  have hfar : ¬ d.positions ≤ max la.separate lb.separate := by
    simp only [axesExhausted, gt_iff_lt, Bool.and_eq_true, decide_eq_true_eq] at hd
    omega
  simp only [conflict, hga, hgb, hfar, Bool.or_false, Bool.and_false, decide_false,
    Bool.false_and]

theorem axesExhausted_mono {bound : Reach} {d d' : Distance} (h : d ≤ d')
    (hd : axesExhausted d bound = true) : axesExhausted d' bound = true :=
  (backward bound).spent_mono h hd

/-! ## The count -/

section Count

variable {me : ItemKeys} {mine : Limits} {bound : Reach}

/-- The walk ahead counts every item it conflicts with, at its own distance. -/
theorem forward_eq (hmine : mine.reach.Within bound) (l : List (ItemKeys × Limits))
    (hl : ∀ e ∈ l, e.2.reach.Within bound) (d : Distance) :
    conflictsAt.forward bound me mine d l =
      ∑ k ∈ Finset.range l.length,
        if conflict me (l.getD k (⟨"", [], 0⟩, {})).1 mine (l.getD k (⟨"", [], 0⟩, {})).2
            ⟨d.positions + (k + 1),
              d.elapsed + ((l.take k).map fun e => e.1.duration).sum⟩ = true then 1 else 0 := by
  induction l generalizing d with
  | nil => rfl
  | cons e l ih =>
    obtain ⟨next, theirs⟩ := e
    have htheirs : theirs.reach.Within bound := hl _ List.mem_cons_self
    have hrest := ih fun e he => hl e (List.mem_cons_of_mem _ he)
    rw [conflictsAt.forward, List.length_cons, Finset.sum_range_succ']
    by_cases hend : axesExhausted ⟨d.positions + 1, d.elapsed⟩ bound = true
    · rw [if_pos hend]
      symm
      rw [Nat.add_eq_zero_iff]
      constructor
      · apply Finset.sum_eq_zero
        intro k hk
        have hfar : axesExhausted ⟨d.positions + (k + 1 + 1),
            d.elapsed + ((((next, theirs) :: l).take (k + 1)).map fun e => e.1.duration).sum⟩
            bound = true := by
          apply axesExhausted_mono _ hend
          exact ⟨by dsimp only; omega, Nat.le_add_right _ _⟩
        have hmem : (l.getD k (⟨"", [], 0⟩, {})).2.reach.Within bound := by
          have hlt := Finset.mem_range.mp hk
          rw [List.getD_eq_getElem?_getD, List.getElem?_eq_getElem hlt, Option.getD_some]
          exact hl _ (List.mem_cons_of_mem _ (List.getElem_mem hlt))
        rw [List.getD_cons_succ, conflict_of_exhausted hmine hmem hfar]
        rfl
      · have hno := conflict_of_exhausted hmine htheirs hend me next
        simp [hno]
    · rw [if_neg hend, hrest, add_comm]
      congr 1
      apply Finset.sum_congr rfl
      intro k _
      rw [List.getD_cons_succ, List.take_succ_cons, List.map_cons, List.sum_cons,
        Nat.add_assoc d.elapsed]
      have hpos : d.positions + 1 + (k + 1) = d.positions + (k + 1 + 1) := by omega
      rw [hpos]

/-- The walk over the seam counts every item of the tail it conflicts with. -/
theorem reached_filter_length (tail : List ItemKeys) (d : Distance) :
    (((backward mine.reach).reached d tail).filter fun e =>
        conflict me e.1 mine {} e.2).length =
      ∑ k ∈ Finset.range tail.length,
        if conflict me (tail.getD k ⟨"", [], 0⟩) mine {}
            ⟨d.positions + (k + 1),
              d.elapsed + ((tail.take (k + 1)).map ItemKeys.duration).sum⟩ = true
          then 1 else 0 := by
  have hmine : mine.reach.Within mine.reach := ⟨le_rfl, le_rfl⟩
  have hnone : ({} : Limits).reach.Within mine.reach := ⟨Nat.zero_le _, Nat.zero_le _⟩
  induction tail generalizing d with
  | nil => rfl
  | cons prev tail ih =>
    have hstep : (backward mine.reach).step d prev = d.past prev := rfl
    have hspent : ∀ d, (backward mine.reach).spent d = axesExhausted d mine.reach := fun _ => rfl
    rw [Lib.Reckoning.reached, hstep, hspent, List.length_cons, Finset.sum_range_succ']
    have hfirst : (⟨d.positions + (0 + 1), d.elapsed +
        (((prev :: tail).take (0 + 1)).map ItemKeys.duration).sum⟩ : Distance) = d.past prev := by
      simp [Distance.past]
    rw [hfirst, List.getD_cons_zero]
    by_cases hend : axesExhausted (d.past prev) mine.reach = true
    · rw [if_pos hend, conflict_of_exhausted hmine hnone hend]
      symm
      simp only [Bool.false_eq_true, if_false, Nat.add_zero, List.filter_nil, List.length_nil]
      apply Finset.sum_eq_zero
      intro k _
      have hfar : axesExhausted ⟨d.positions + (k + 1 + 1),
          d.elapsed + (((prev :: tail).take (k + 1 + 1)).map ItemKeys.duration).sum⟩
          mine.reach = true := by
        apply axesExhausted_mono _ hend
        refine ⟨by simp only [Distance.past]; omega, ?_⟩
        rw [List.take_succ_cons, List.map_cons, List.sum_cons]
        simp only [Distance.past]
        omega
      rw [conflict_of_exhausted hmine hnone hfar]
      rfl
    · rw [if_neg hend, List.filter_cons]
      have hrest := ih (d.past prev)
      have hsum : ∀ k, (⟨(d.past prev).positions + (k + 1), (d.past prev).elapsed +
            ((tail.take (k + 1)).map ItemKeys.duration).sum⟩ : Distance) =
          ⟨d.positions + (k + 1 + 1), d.elapsed +
            (((prev :: tail).take (k + 1 + 1)).map ItemKeys.duration).sum⟩ := by
        intro k
        rw [List.take_succ_cons, List.map_cons, List.sum_cons]
        simp only [Distance.past]
        congr 1 <;> omega
      simp only [hsum] at hrest
      simp only [List.getD_cons_succ]
      split_ifs with hc
      · rw [List.length_cons, hrest]
      · rw [hrest, Nat.add_zero]

end Count

section Reaches

variable {limits : List Limits}

def widest (limits : List Limits) : Reach := (limits.map Limits.reach).foldl Reach.widen {}

theorem foldl_widen (rs : List Reach) (r : Reach) :
    r.Within (rs.foldl Reach.widen r) ∧ ∀ x ∈ rs, x.Within (rs.foldl Reach.widen r) := by
  induction rs generalizing r with
  | nil => exact ⟨⟨le_rfl, le_rfl⟩, nofun⟩
  | cons x rs ih =>
    obtain ⟨hfold, hrest⟩ := ih (r.widen x)
    have hr : r.Within (rs.foldl Reach.widen (r.widen x)) :=
      ⟨le_trans (le_max_left _ _) hfold.1, le_trans (le_max_left _ _) hfold.2⟩
    have hx : x.Within (rs.foldl Reach.widen (r.widen x)) :=
      ⟨le_trans (le_max_right _ _) hfold.1, le_trans (le_max_right _ _) hfold.2⟩
    rw [List.foldl_cons]
    refine ⟨hr, fun y hy => ?_⟩
    rcases List.mem_cons.mp hy with rfl | hy
    · exact hx
    · exact hrest y hy

theorem within_widest (limits : List Limits) (p : ℕ) :
    (limitsOf limits p).reach.Within (widest limits) := by
  rw [limitsOf, List.getD_eq_getElem?_getD]
  cases h : limits[p]? with
  | none => exact ⟨Nat.zero_le _, Nat.zero_le _⟩
  | some l =>
    have hmem := List.mem_map_of_mem (f := Limits.reach) (List.mem_of_getElem? h)
    exact (foldl_widen _ {}).2 _ hmem

end Reaches

section Objective

variable {items : List ItemKeys} {limits : List Limits} {preceding : List ItemKeys}
  {order : List ℕ}

theorem getD_map_drop (order : List ℕ) (i k : ℕ) (hk : i + k < order.length) :
    (((order.drop i).map fun p => (keysOf items p, limitsOf limits p)).getD k
      (⟨"", [], 0⟩, {})) =
        (keysOf items (order.getD (i + k) 0), limitsOf limits (order.getD (i + k) 0)) := by
  simp only [List.getD_eq_getElem?_getD, List.getElem?_map, List.getElem?_drop,
    List.getElem?_eq_getElem hk, Option.map_some, Option.getD_some]

theorem elapsedBetween_succ {i k : ℕ} (hi : i < order.length) :
    elapsedBetween items order i (i + 1 + k) = (keysOf items (order.getD i 0)).duration +
      (((order.drop (i + 1)).take k).map fun p => (keysOf items p).duration).sum := by
  have hget : order.drop i = order.getD i 0 :: order.drop (i + 1) := by
    rw [List.drop_eq_getElem_cons hi, List.getD_eq_getElem?_getD, List.getElem?_eq_getElem hi,
      Option.getD_some]
  have hsub : i + 1 + k - i = k + 1 := by omega
  rw [elapsedBetween, hsub, hget, List.take_succ_cons, List.map_cons, List.sum_cons]

/-- What the objective counts at one position: its conflicts ahead and over the seam. -/
theorem conflictsAt_eq {bound : Reach} (hbound : ∀ p, (limitsOf limits p).reach.Within bound)
    {i : ℕ} (hi : i < order.length) :
    conflictsAt order items limits bound preceding i =
      (∑ j ∈ Finset.range order.length, if i < j ∧ Clash items limits order i j then 1 else 0,
        ∑ k ∈ Finset.range preceding.length,
          if TailClash items limits preceding order i k then 1 else 0) := by
  have hsplit : order.length = i + 1 + (order.length - (i + 1)) := by omega
  have hnear : ∑ j ∈ Finset.range (i + 1),
      (if i < j ∧ Clash items limits order i j then 1 else 0) = 0 := by
    apply Finset.sum_eq_zero
    intro j hj
    have hle := Finset.mem_range.mp hj
    rw [if_neg]
    omega
  have hahead : ∑ j ∈ Finset.range order.length,
      (if i < j ∧ Clash items limits order i j then 1 else 0) =
        ∑ k ∈ Finset.range (order.length - (i + 1)),
          if Clash items limits order i (i + 1 + k) then 1 else 0 := by
    rw [hsplit, Finset.sum_range_add, hnear, Nat.zero_add, ← hsplit]
    apply Finset.sum_congr rfl
    intro k _
    have hlt : i < i + 1 + k := by omega
    simp only [hlt, true_and]
  have hl : ∀ e ∈ (order.drop (i + 1)).map fun p => (keysOf items p, limitsOf limits p),
      e.2.reach.Within bound := by
    intro e he
    obtain ⟨p, -, rfl⟩ := List.mem_map.mp he
    exact hbound p
  have hforward := @forward_eq (keysOf items (order.getD i 0)) _ _ (hbound (order.getD i 0)) _ hl
    ⟨0, (keysOf items (order.getD i 0)).duration⟩
  have hseam := @reached_filter_length (keysOf items (order.getD i 0))
    (limitsOf limits (order.getD i 0)) preceding.reverse
    ⟨i, ((order.take i).map fun p => (keysOf items p).duration).sum⟩
  unfold conflictsAt
  apply Prod.ext
  · refine hforward.trans ?_
    rw [hahead, List.length_map, List.length_drop]
    apply Finset.sum_congr rfl
    intro k hk
    have hlt : i + 1 + k < order.length := by
      have := Finset.mem_range.mp hk
      omega
    have hpos : i + 1 + k - i = 0 + (k + 1) := by omega
    have hentry := @getD_map_drop items limits order (i + 1) k hlt
    simp only [Clash, elapsedBetween_succ hi, hpos]
    rw [hentry, ← List.map_take, List.map_map]
    rfl
  · refine hseam.trans ?_
    rw [List.length_reverse]
    rfl

/-- The objective of the repair is the number of conflicting pairs. -/
theorem violationCount_eq {bound : Reach} (hbound : ∀ p, (limitsOf limits p).reach.Within bound) :
    violationCount order items limits bound preceding =
      clashCount items limits preceding order := by
  have hat : ∀ i ∈ List.range order.length,
      (conflictsAt order items limits bound preceding i).1 +
          (conflictsAt order items limits bound preceding i).2 =
        (∑ j ∈ Finset.range order.length, if i < j ∧ Clash items limits order i j then 1 else 0) +
          ∑ k ∈ Finset.range preceding.length,
            if TailClash items limits preceding order i k then 1 else 0 := by
    intro i hi
    rw [conflictsAt_eq hbound (List.mem_range.mp hi)]
  have hsum : ∀ f : ℕ → ℕ, ((List.range order.length).map f).sum =
      ∑ i ∈ Finset.range order.length, f i := fun _ => rfl
  rw [violationCount, List.map_congr_left hat, hsum, Finset.sum_add_distrib, clashCount,
    Finset.card_filter, Finset.card_filter, Finset.sum_product, Finset.sum_product]

end Objective

/-! ## The greedy pass -/

section LookBack

variable {items : List ItemKeys} {limits : List Limits} {bound : Reach}
  {preceding : List ItemKeys} {me : ItemKeys} {mine : Limits}

/-- What the look back over the seam finds is a conflict at its distance. -/
theorem seam_conflict {tail : List ItemKeys} {d : Distance}
    (h : violates.seam me mine d tail = true) :
    ∃ k < tail.length, conflict me (tail.getD k ⟨"", [], 0⟩) mine {}
      ⟨d.positions + (k + 1), d.elapsed + ((tail.take (k + 1)).map ItemKeys.duration).sum⟩ =
        true := by
  induction tail generalizing d with
  | nil => cases h
  | cons prev tail ih =>
    rw [violates.seam] at h
    split_ifs at h
    rw [Bool.or_eq_true] at h
    rcases h with h | h
    · refine ⟨0, Nat.zero_lt_succ _, ?_⟩
      simpa [Distance.past] using h
    · obtain ⟨k, hk, hconflict⟩ := ih h
      refine ⟨k + 1, Nat.succ_lt_succ hk, ?_⟩
      rw [List.getD_cons_succ, List.take_succ_cons, List.map_cons, List.sum_cons]
      simp only [Distance.past] at hconflict
      have hpos : d.positions + (k + 1 + 1) = d.positions + 1 + (k + 1) := by omega
      rw [hpos, ← Nat.add_assoc d.elapsed]
      exact hconflict

/-- What the look back finds is a conflict with something placed, or over the seam. -/
theorem go_conflict {placed : List (ItemKeys × Limits)} {d : Distance}
    (h : violates.go bound preceding me mine d placed = true) :
    (∃ k < placed.length, conflict me (placed.getD k (⟨"", [], 0⟩, {})).1 mine
      (placed.getD k (⟨"", [], 0⟩, {})).2
      ⟨d.positions + (k + 1), d.elapsed +
        ((placed.take (k + 1)).map fun e => e.1.duration).sum⟩ = true) ∨
    ∃ k < preceding.length, conflict me (preceding.reverse.getD k ⟨"", [], 0⟩) mine {}
      ⟨d.positions + placed.length + (k + 1),
        d.elapsed + (placed.map fun e => e.1.duration).sum +
          ((preceding.reverse.take (k + 1)).map ItemKeys.duration).sum⟩ = true := by
  induction placed generalizing d with
  | nil =>
    rw [violates.go] at h
    obtain ⟨k, hk, hconflict⟩ := seam_conflict h
    rw [List.length_reverse] at hk
    exact Or.inr ⟨k, hk, hconflict⟩
  | cons e placed ih =>
    obtain ⟨prev, theirs⟩ := e
    rw [violates.go] at h
    split_ifs at h
    rw [Bool.or_eq_true] at h
    rcases h with h | h
    · left
      refine ⟨0, Nat.zero_lt_succ _, ?_⟩
      simpa [Distance.past] using h
    · rcases ih h with ⟨k, hk, hconflict⟩ | ⟨k, hk, hconflict⟩
      · left
        refine ⟨k + 1, Nat.succ_lt_succ hk, ?_⟩
        rw [List.getD_cons_succ, List.take_succ_cons, List.map_cons, List.sum_cons]
        simp only [Distance.past] at hconflict
        have hpos : d.positions + (k + 1 + 1) = d.positions + 1 + (k + 1) := by omega
        rw [hpos, ← Nat.add_assoc d.elapsed]
        exact hconflict
      · right
        refine ⟨k, hk, ?_⟩
        rw [List.map_cons, List.sum_cons, List.length_cons]
        simp only [Distance.past] at hconflict
        have hpos : d.positions + (placed.length + 1) + (k + 1) =
            d.positions + 1 + placed.length + (k + 1) := by omega
        rw [hpos, ← Nat.add_assoc d.elapsed]
        exact hconflict

/-- The greedy pass turns an item away only for a conflicting pair of any order that goes on as
it did so far and places the item next. -/
theorem violates_clash {order : List ℕ} {j : ℕ} (hj : j < order.length)
    (h : violates (order.take j) (order.getD j 0) items limits bound preceding = true) :
    (∃ i < j, Clash items limits order i j) ∨
      ∃ k < preceding.length, TailClash items limits preceding order j k := by
  have hlen : ((order.take j).reverse.map fun p => (keysOf items p, limitsOf limits p)).length =
      j := by
    rw [List.length_map, List.length_reverse, List.length_take, Nat.min_eq_left hj.le]
  have hlen' : (order.take j).length = j := by rw [List.length_take, Nat.min_eq_left hj.le]
  have hgo : violates.go bound preceding (keysOf items (order.getD j 0))
      (limitsOf limits (order.getD j 0)) {}
      ((order.take j).reverse.map fun p => (keysOf items p, limitsOf limits p)) = true := h
  rcases go_conflict hgo with ⟨k, hk, hconflict⟩ | ⟨k, hk, hconflict⟩
  · left
    rw [hlen] at hk
    have hi : j - 1 - k < j := by omega
    have hentry : ((order.take j).reverse.map fun p =>
        (keysOf items p, limitsOf limits p)).getD k (⟨"", [], 0⟩, {}) =
          (keysOf items (order.getD (j - 1 - k) 0), limitsOf limits (order.getD (j - 1 - k) 0)) := by
      have hk' : k < (order.take j).length := by omega
      have hin : j - 1 - k < order.length := by omega
      simp only [List.getD_eq_getElem?_getD, List.getElem?_map, List.getElem?_reverse hk', hlen',
        List.getElem?_take, hi, if_true, List.getElem?_eq_getElem hin, Option.map_some,
        Option.getD_some]
    have helapsed : (((((order.take j).reverse.map fun p =>
        (keysOf items p, limitsOf limits p)).take (k + 1)).map fun e => e.1.duration).sum) =
          elapsedBetween items order (j - 1 - k) j := by
      rw [← List.map_take, List.map_map, List.take_reverse, List.map_reverse, List.sum_reverse,
        hlen', elapsedBetween, List.drop_take]
      have hdrop : j - (k + 1) = j - 1 - k := by omega
      rw [hdrop]
      rfl
    refine ⟨j - 1 - k, hi, ?_⟩
    have hpos : j - (j - 1 - k) = 0 + (k + 1) := by omega
    rw [hentry, helapsed, conflict_comm, Nat.zero_add (elapsedBetween _ _ _ _), ← hpos] at hconflict
    exact hconflict
  · right
    refine ⟨k, hk, ?_⟩
    have helapsed : (((order.take j).reverse.map fun p =>
        (keysOf items p, limitsOf limits p)).map fun e => e.1.duration).sum =
          elapsedBetween items order 0 j := by
      rw [List.map_map, List.map_reverse, List.sum_reverse, elapsedBetween, List.drop_zero,
        Nat.sub_zero]
      rfl
    rw [hlen, helapsed, Nat.zero_add j, Nat.zero_add (elapsedBetween _ _ _ _)] at hconflict
    exact hconflict

end LookBack

section Order

variable {items : List ItemKeys} {limits : List Limits} {preceding : List ItemKeys}
  {order : List ℕ} {bound : Reach}

theorem clashCount_eq_zero_iff : clashCount items limits preceding order = 0 ↔
    (∀ i j, i < j → j < order.length → ¬ Clash items limits order i j) ∧
      ∀ i < order.length, ∀ k < preceding.length,
        ¬ TailClash items limits preceding order i k := by
  rw [clashCount, Nat.add_eq_zero_iff, Finset.card_eq_zero, Finset.card_eq_zero,
    Finset.filter_eq_empty_iff, Finset.filter_eq_empty_iff]
  constructor
  · intro ⟨hin, htail⟩
    constructor
    · intro i j hij hj hclash
      apply @hin (i, j) _ ⟨hij, hclash⟩
      exact Finset.mem_product.mpr
        ⟨Finset.mem_range.mpr (hij.trans hj), Finset.mem_range.mpr hj⟩
    · intro i hi k hk
      apply @htail (i, k)
      exact Finset.mem_product.mpr ⟨Finset.mem_range.mpr hi, Finset.mem_range.mpr hk⟩
  · intro ⟨hin, htail⟩
    constructor
    · intro ⟨i, j⟩ hmem ⟨hij, hclash⟩
      have hj := Finset.mem_range.mp (Finset.mem_product.mp hmem).2
      exact hin i j hij hj hclash
    · intro ⟨i, k⟩ hmem
      have hmem := Finset.mem_product.mp hmem
      exact htail i (Finset.mem_range.mp hmem.1) k (Finset.mem_range.mp hmem.2)

/-- An order without a conflicting pair is what the greedy pass places, item by item. -/
theorem greedy_clean {turns : ℕ} (hclean : clashCount items limits preceding order = 0)
    (hturns : turns ≤ order.length) :
    greedy items limits bound preceding turns (order.drop (order.length - turns))
      (order.take (order.length - turns)) = order := by
  obtain ⟨hin, htail⟩ := clashCount_eq_zero_iff.mp hclean
  induction turns with
  | zero => rw [greedy, Nat.sub_zero, List.take_length]
  | succ turns ih =>
    have hj : order.length - (turns + 1) < order.length := by omega
    have hnext : order.length - (turns + 1) + 1 = order.length - turns := by omega
    have hdrop : order.drop (order.length - (turns + 1)) =
        order.getD (order.length - (turns + 1)) 0 :: order.drop (order.length - turns) := by
      rw [List.drop_eq_getElem_cons hj, hnext, List.getD_eq_getElem?_getD,
        List.getElem?_eq_getElem hj, Option.getD_some]
    have htake : order.take (order.length - (turns + 1)) ++
        [order.getD (order.length - (turns + 1)) 0] = order.take (order.length - turns) := by
      rw [← hnext, List.take_add_one, List.getD_eq_getElem?_getD, List.getElem?_eq_getElem hj]
      rfl
    have hfree : violates (order.take (order.length - (turns + 1)))
        (order.getD (order.length - (turns + 1)) 0) items limits bound preceding = false := by
      rw [Bool.eq_false_iff]
      intro hviolates
      rcases violates_clash hj hviolates with ⟨i, hi, hclash⟩ | ⟨k, hk, hclash⟩
      · exact hin _ _ hi hj hclash
      · exact htail _ hj k hk hclash
    rw [greedy, hdrop, List.findIdx?_cons, hfree]
    simp only [Bool.not_false, if_true, Option.getD_some, List.getElem?_cons_zero,
      List.eraseIdx_cons_zero]
    rw [htake]
    exact ih (by omega)

theorem improvingSwap_spec {order' : List ℕ} {best best' : ℕ}
    (h : improvingSwap order items limits bound preceding best = some (order', best')) :
    best' = violationCount order' items limits bound preceding ∧ best' < best := by
  obtain ⟨i, -, hrow⟩ := List.exists_of_findSome?_eq_some h
  obtain ⟨j, -, hswap⟩ := List.exists_of_findSome?_eq_some hrow
  dsimp only at hswap
  split_ifs at hswap with hij hless
  obtain ⟨rfl, rfl⟩ := Prod.mk.inj (Option.some.inj hswap)
  exact ⟨rfl, hless⟩

/-- Every round lowers the count, and the repair answers the count of the order it answers. -/
theorem repair_spec (rounds : ℕ) {best : ℕ}
    (hbest : best = violationCount order items limits bound preceding) :
    (repair items limits bound preceding rounds order best).2 = violationCount
        (repair items limits bound preceding rounds order best).1 items limits bound preceding ∧
      (repair items limits bound preceding rounds order best).2 ≤ best := by
  induction rounds generalizing order best with
  | zero => exact ⟨hbest, le_rfl⟩
  | succ rounds ih =>
    rw [repair]
    split_ifs with hzero
    · have hzero := beq_iff_eq.mp hzero
      exact ⟨hzero.symm.trans hbest, Nat.zero_le _⟩
    · cases hswap : improvingSwap order items limits bound preceding best with
      | none => exact ⟨hbest, le_rfl⟩
      | some swapped =>
        obtain ⟨order', best'⟩ := swapped
        obtain ⟨hcount, hless⟩ := improvingSwap_spec hswap
        obtain ⟨heq, hle⟩ := ih hcount
        exact ⟨heq, hle.trans hless.le⟩

/-- Under no limits there is nothing to conflict. -/
theorem clashCount_of_unconstrained (h : (widest limits).isUnconstrained = true) :
    clashCount items limits preceding order = 0 := by
  simp only [Reach.isUnconstrained, Bool.and_eq_true, beq_iff_eq] at h
  have hnone : ({} : Limits).reach.Within (widest limits) := ⟨Nat.zero_le _, Nat.zero_le _⟩
  have hspent : ∀ d : Distance, 0 < d.positions → axesExhausted d (widest limits) = true := by
    intro d hd
    simp only [axesExhausted, h.1, h.2, gt_iff_lt, hd, decide_true, beq_self_eq_true,
      Bool.true_or, Bool.and_self]
  rw [clashCount_eq_zero_iff]
  constructor
  · intro i j hij _ hclash
    have hfar := hspent ⟨j - i, elapsedBetween items order i j⟩ (Nat.sub_pos_of_lt hij)
    rw [Clash, conflict_of_exhausted (within_widest _ _) (within_widest _ _) hfar] at hclash
    cases hclash
  · intro i _ k _ hclash
    rw [TailClash, conflict_of_exhausted (within_widest _ _) hnone
      (hspent _ (Nat.succ_pos _))] at hclash
    cases hclash

/-- The pass answers a rearrangement, counts its conflicting pairs exactly, keeps an order that
has none, and repairs to no more conflicts than the greedy order has. -/
theorem orderConstrained_exact (items : List ItemKeys) (limits : List Limits)
    (preceding : List ItemKeys) :
    (orderConstrained items limits preceding).order.Perm (List.range items.length) ∧
      (orderConstrained items limits preceding).unresolved = clashCount items limits preceding
        (orderConstrained items limits preceding).order ∧
      (clashCount items limits preceding (List.range items.length) = 0 →
        (orderConstrained items limits preceding).order = List.range items.length) ∧
      clashCount items limits preceding (orderConstrained items limits preceding).order ≤
        clashCount items limits preceding (greedy items limits (widest limits) preceding
          items.length (List.range items.length) []) := by
  have hperm := orderConstrained_perm items limits preceding
  have hgreedy : clashCount items limits preceding (List.range items.length) = 0 →
      greedy items limits (widest limits) preceding items.length (List.range items.length) [] =
        List.range items.length := by
    intro hclean
    have hall := @greedy_clean _ _ _ _ (widest limits) _ hclean List.length_range.ge
    rwa [List.length_range, Nat.sub_self, List.drop_zero, List.take_zero] at hall
  set out := greedy items limits (widest limits) preceding items.length
    (List.range items.length) [] with hout
  have hanswer : orderConstrained items limits preceding =
      if (widest limits).isUnconstrained || items.length == 0 then ⟨List.range items.length, 0⟩
      else
        let repaired := repair items limits (widest limits) preceding MAX_REPAIR_ROUNDS out
          (violationCount out items limits (widest limits) preceding)
        ⟨repaired.1, repaired.2⟩ := rfl
  refine ⟨hperm, ?_⟩
  rw [hanswer]
  split_ifs with hnothing
  · have hzero : clashCount items limits preceding (List.range items.length) = 0 := by
      rw [Bool.or_eq_true, beq_iff_eq] at hnothing
      rcases hnothing with hfree | hempty
      · exact clashCount_of_unconstrained hfree
      · rw [hempty]
        rfl
    exact ⟨hzero.symm, fun _ => rfl, hzero.le.trans (Nat.zero_le _)⟩
  · have hcounts : ∀ order, violationCount order items limits (widest limits) preceding =
        clashCount items limits preceding order := fun _ => violationCount_eq (within_widest limits)
    have hrepair := @repair_spec items limits preceding out (widest limits) MAX_REPAIR_ROUNDS _ rfl
    simp only [hcounts] at hrepair ⊢
    obtain ⟨hcount, hle⟩ := hrepair
    refine ⟨hcount, fun hclean => ?_, hcount.symm.trans_le hle⟩
    have hzero : clashCount items limits preceding out = 0 := by rw [hgreedy hclean, hclean]
    have hsame : repair items limits (widest limits) preceding MAX_REPAIR_ROUNDS out 0 =
        (out, 0) := rfl
    rw [hzero, hsame, hgreedy hclean]

end Order

end EtvStation
