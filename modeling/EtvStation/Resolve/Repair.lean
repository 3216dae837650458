import EtvStation.Resolve.Clashes

/-! Where the swap repair stops. A round tries to move only items that begin a conflicting pair,
so it can stop at an order that another exchange would improve. -/
namespace EtvStation

section Exchanges

variable (items : List ItemKeys) (limits : List Limits) (preceding : List ItemKeys)
  (order : List ℕ)

/-- Exchanging the items of two positions leaves fewer conflicting pairs. -/
def Improves (i j : ℕ) : Prop :=
  i < order.length ∧ j < order.length ∧
    clashCount items limits preceding (swapAt order i j) < clashCount items limits preceding order

/-- No exchange leaves fewer conflicting pairs. -/
def LocallyOptimal : Prop := ∀ i j, ¬ Improves items limits preceding order i j

/-- The item at position `i` is the earlier of a conflicting pair, or conflicts with what aired
before the list. -/
def BeginsClash (i : ℕ) : Prop :=
  (∃ j < order.length, i < j ∧ Clash items limits order i j) ∨
    ∃ k < preceding.length, TailClash items limits preceding order i k

/-- If an exchange leaves fewer conflicting pairs, so does one that moves an item that begins
such a pair. -/
def RepairSees : Prop :=
  (∃ i j, Improves items limits preceding order i j) →
    ∃ i j, BeginsClash items limits preceding order i ∧ Improves items limits preceding order i j

end Exchanges

def roundOrders (items : List ItemKeys) (limits : List Limits) (bound : Reach)
    (preceding : List ItemKeys) : (rounds : ℕ) → List ℕ → ℕ → List (List ℕ)
  | 0, _, _ => []
  | rounds + 1, order, best =>
    if best == 0 then []
    else order ::
      match improvingSwap order items limits bound preceding best with
      | some (order, best) => roundOrders items limits bound preceding rounds order best
      | none => []

def roundsUsed (items : List ItemKeys) (limits : List Limits) (bound : Reach)
    (preceding : List ItemKeys) : (rounds : ℕ) → List ℕ → ℕ → ℕ
  | 0, _, _ => 0
  | rounds + 1, order, best =>
    if best == 0 then 0
    else
      match improvingSwap order items limits bound preceding best with
      | some (order, best) => roundsUsed items limits bound preceding rounds order best + 1
      | none => 0

/-- The rounds of the repair inside `orderConstrained`, and how many of them it uses. -/
def repairOrders (items : List ItemKeys) (limits : List Limits) (preceding : List ItemKeys) :
    List (List ℕ) :=
  if (widest limits).isUnconstrained || items.length == 0 then []
  else
    let out := greedy items limits (widest limits) preceding items.length
      (List.range items.length) []
    roundOrders items limits (widest limits) preceding MAX_REPAIR_ROUNDS out
      (violationCount out items limits (widest limits) preceding)

def repairRounds (items : List ItemKeys) (limits : List Limits) (preceding : List ItemKeys) : ℕ :=
  if (widest limits).isUnconstrained || items.length == 0 then 0
  else
    let out := greedy items limits (widest limits) preceding items.length
      (List.range items.length) []
    roundsUsed items limits (widest limits) preceding MAX_REPAIR_ROUNDS out
      (violationCount out items limits (widest limits) preceding)

section Rounds

variable {items : List ItemKeys} {limits : List Limits} {preceding : List ItemKeys}
  {order : List ℕ}

theorem swapAt_self {i : ℕ} (hi : i < order.length) : swapAt order i i = order := by
  rw [swapAt, List.set_set, List.getD_eq_getElem?_getD, List.getElem?_eq_getElem hi,
    Option.getD_some, List.set_getElem_self]

theorem Improves.ne {i j : ℕ} (h : Improves items limits preceding order i j) : i ≠ j := by
  intro hij
  have hless := h.2.2
  rw [← hij, swapAt_self h.1] at hless
  exact lt_irrefl _ hless

theorem sum_ite_pos {n : ℕ} {p : ℕ → Prop} [DecidablePred p] :
    0 < ∑ j ∈ Finset.range n, (if p j then 1 else 0) ↔ ∃ j < n, p j := by
  rw [← Finset.card_filter, Finset.card_pos, Finset.filter_nonempty_iff]
  simp only [Finset.mem_range]

/-- The positions a round tries to move are those that begin a conflicting pair. -/
theorem mem_violatingPositions {i : ℕ} :
    i ∈ violatingPositions order items limits (widest limits) preceding ↔
      i < order.length ∧ BeginsClash items limits preceding order i := by
  rw [violatingPositions, List.mem_filter, List.mem_range]
  refine and_congr_right fun hi => ?_
  rw [conflictsAt_eq (within_widest limits) hi]
  simp only [gt_iff_lt, Bool.or_eq_true, decide_eq_true_eq, BeginsClash, sum_ite_pos]

/-- A round that finds nothing has tried every exchange that moves such an item. -/
theorem improvingSwap_none {best : ℕ} (hbest : best = clashCount items limits preceding order)
    (h : improvingSwap order items limits (widest limits) preceding best = none) {i j : ℕ}
    (hi : BeginsClash items limits preceding order i) :
    ¬ Improves items limits preceding order i j := by
  intro himproves
  have hrow := List.findSome?_eq_none_iff.mp h i
    (mem_violatingPositions.mpr ⟨himproves.1, hi⟩)
  have hswap := List.findSome?_eq_none_iff.mp hrow j (List.mem_range.mpr himproves.2.1)
  have hne : (i == j) = false := by simpa using himproves.ne
  have hless : violationCount (swapAt order i j) items limits (widest limits) preceding < best := by
    rw [violationCount_eq (within_widest limits), hbest]
    exact himproves.2.2
  rw [hne, if_neg Bool.false_ne_true, if_pos hless] at hswap
  cases hswap

/-- A round that finds an exchange moves such an item by it. -/
theorem improvingSwap_improves {order' : List ℕ} {best best' : ℕ}
    (hbest : best = clashCount items limits preceding order)
    (h : improvingSwap order items limits (widest limits) preceding best = some (order', best')) :
    ∃ i j, BeginsClash items limits preceding order i ∧ Improves items limits preceding order i j := by
  obtain ⟨i, hi, hrow⟩ := List.exists_of_findSome?_eq_some h
  obtain ⟨j, hj, hswap⟩ := List.exists_of_findSome?_eq_some hrow
  dsimp only at hswap
  split_ifs at hswap with hij hless
  obtain ⟨hlt, hbegins⟩ := mem_violatingPositions.mp hi
  rw [violationCount_eq (within_widest limits), hbest] at hless
  exact ⟨i, j, hbegins, hlt, List.mem_range.mp hj, hless⟩

theorem locallyOptimal_of_none {best : ℕ} (hbest : best = clashCount items limits preceding order)
    (h : improvingSwap order items limits (widest limits) preceding best = none) :
    LocallyOptimal items limits preceding order ↔ RepairSees items limits preceding order := by
  constructor
  · intro hoptimal hsome
    obtain ⟨i, j, himproves⟩ := hsome
    exact absurd himproves (hoptimal i j)
  · intro hsees i j himproves
    obtain ⟨i', j', hbegins, himproves'⟩ := hsees ⟨i, j, himproves⟩
    exact improvingSwap_none hbest h hbegins himproves'

/-- A repair that stops short of its rounds stops at a local optimum just when every round sees
an exchange that helps, if there is one. -/
theorem repair_locallyOptimal_iff (rounds : ℕ) {best : ℕ}
    (hbest : best = clashCount items limits preceding order) :
    (0 < (repair items limits (widest limits) preceding rounds order best).2 →
      roundsUsed items limits (widest limits) preceding rounds order best < rounds →
      LocallyOptimal items limits preceding
        (repair items limits (widest limits) preceding rounds order best).1) ↔
    ∀ o ∈ roundOrders items limits (widest limits) preceding rounds order best,
      RepairSees items limits preceding o := by
  induction rounds generalizing order best with
  | zero =>
    rw [roundOrders]
    exact iff_of_true (fun _ h => absurd h (Nat.not_lt_zero _)) fun o ho => absurd ho List.not_mem_nil
  | succ rounds ih =>
    rw [repair, roundsUsed, roundOrders]
    by_cases hzero : (best == 0) = true
    · rw [if_pos hzero, if_pos hzero, if_pos hzero]
      exact iff_of_true (fun h => absurd h (lt_irrefl 0)) fun o ho => absurd ho List.not_mem_nil
    · rw [if_neg hzero, if_neg hzero, if_neg hzero]
      have hpos : 0 < best := Nat.pos_of_ne_zero fun h => hzero (by rw [h]; rfl)
      cases hswap : improvingSwap order items limits (widest limits) preceding best with
      | none =>
        have hiff := locallyOptimal_of_none hbest hswap
        simp only [List.mem_singleton, forall_eq]
        rw [← hiff]
        exact ⟨fun h => h hpos (Nat.succ_pos _), fun h _ _ => h⟩
      | some swapped =>
        obtain ⟨order', best'⟩ := swapped
        have hsees : RepairSees items limits preceding order := fun _ =>
          improvingSwap_improves hbest hswap
        have hbest' : best' = clashCount items limits preceding order' := by
          rw [(improvingSwap_spec hswap).1, violationCount_eq (within_widest limits)]
        simp only [List.mem_cons, forall_eq_or_imp, hsees, true_and, Nat.add_lt_add_iff_right]
        exact ih hbest'

/-- The pass answers a local optimum, whenever it stops short of its rounds with conflicts left,
just when each of its rounds sees an exchange that helps, if there is one. -/
theorem orderConstrained_locallyOptimal_iff (items : List ItemKeys) (limits : List Limits)
    (preceding : List ItemKeys) :
    (0 < (orderConstrained items limits preceding).unresolved →
      repairRounds items limits preceding < MAX_REPAIR_ROUNDS →
      LocallyOptimal items limits preceding (orderConstrained items limits preceding).order) ↔
    ∀ order ∈ repairOrders items limits preceding, RepairSees items limits preceding order := by
  set out := greedy items limits (widest limits) preceding items.length
    (List.range items.length) [] with hout
  have hanswer : orderConstrained items limits preceding =
      if (widest limits).isUnconstrained || items.length == 0 then ⟨List.range items.length, 0⟩
      else
        let repaired := repair items limits (widest limits) preceding MAX_REPAIR_ROUNDS out
          (violationCount out items limits (widest limits) preceding)
        ⟨repaired.1, repaired.2⟩ := rfl
  rw [hanswer, repairRounds, repairOrders]
  by_cases hnothing : ((widest limits).isUnconstrained || items.length == 0) = true
  · rw [if_pos hnothing, if_pos hnothing, if_pos hnothing]
    exact iff_of_true (fun h => absurd h (lt_irrefl 0)) fun o ho => absurd ho List.not_mem_nil
  · rw [if_neg hnothing, if_neg hnothing, if_neg hnothing]
    exact repair_locallyOptimal_iff MAX_REPAIR_ROUNDS (violationCount_eq (within_widest limits))

end Rounds

/-- Two airings of one film, a film that shares a group with the first of them between them. -/
def twinBill : List ItemKeys := [⟨"A", ["g"], 1⟩, ⟨"C", ["g"], 1⟩, ⟨"A", ["h"], 1⟩]

def twinLimits : List Limits := List.replicate 3 { noRepeat := .positions 2, separate := 1 }

/-- Both conflicts begin at the first item, and moving it does not help; exchanging the other two
would leave one. -/
theorem twinBill_not_optimal :
    0 < (orderConstrained twinBill twinLimits []).unresolved ∧
      repairRounds twinBill twinLimits [] < MAX_REPAIR_ROUNDS ∧
      ¬ LocallyOptimal twinBill twinLimits [] (orderConstrained twinBill twinLimits []).order := by
  refine ⟨by decide +kernel, by decide +kernel, fun hoptimal => hoptimal 1 2 ?_⟩
  exact ⟨by decide +kernel, by decide +kernel, by decide +kernel⟩

end EtvStation
