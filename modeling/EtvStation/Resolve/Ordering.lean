import EtvStation.Constrain
import Mathlib.Data.List.Perm.Basic

/-! The adjacency pass only rearranges: the order it answers visits each item exactly once. -/
namespace EtvStation

/-- Taking the pick off the queue, each item ends up placed. -/
theorem greedy_perm (items : List ItemKeys) (limits : List Limits) (bound : Reach)
    (preceding : List ItemKeys) (turns : ℕ) {pending out : List ℕ} (h : pending.length ≤ turns) :
    (greedy items limits bound preceding turns pending out).Perm (out ++ pending) := by
  induction turns generalizing pending out with
  | zero =>
    obtain rfl := List.length_eq_zero_iff.mp (Nat.le_zero.mp h)
    rw [greedy, List.append_nil]
  | succ turns ih =>
    rw [greedy]
    generalize hpick : (pending.findIdx? fun cand =>
      !violates out cand items limits bound preceding).getD 0 = pick
    have hlt : pending ≠ [] → pick < pending.length := by
      intro hne
      rw [← hpick]
      cases hfind : pending.findIdx? fun cand =>
          !violates out cand items limits bound preceding with
      | none => exact List.length_pos_iff.mpr hne
      | some i => exact (List.findIdx?_eq_some_iff_getElem.mp hfind).1
    split
    · next hnone =>
      have hempty : pending = [] := by
        by_contra hne
        exact absurd (List.getElem?_eq_none_iff.mp hnone) (not_le.mpr (hlt hne))
      rw [hempty, List.append_nil]
    · next cand hcand =>
      obtain ⟨hin, rfl⟩ := List.getElem?_eq_some_iff.mp hcand
      have hlen : (pending.eraseIdx pick).length ≤ turns := by
        rw [List.length_eraseIdx_of_lt hin]
        omega
      refine (ih hlen).trans ?_
      rw [List.append_assoc]
      exact (List.getElem_cons_eraseIdx_perm hin).append_left out

theorem swapAt_perm {order : List ℕ} {i j : ℕ} (hi : i < order.length) (hj : j < order.length) :
    (swapAt order i j).Perm order := by
  have hset := List.set_set_perm hi hj
  simpa [swapAt, List.getD_eq_getElem?_getD, hi, hj] using hset

theorem improvingSwap_perm {order order' : List ℕ} {items : List ItemKeys} {limits : List Limits}
    {bound : Reach} {preceding : List ItemKeys} {best best' : ℕ}
    (h : improvingSwap order items limits bound preceding best = some (order', best')) :
    order'.Perm order := by
  obtain ⟨i, hi, hrow⟩ := List.exists_of_findSome?_eq_some h
  obtain ⟨j, hj, hswap⟩ := List.exists_of_findSome?_eq_some hrow
  dsimp only at hswap
  split_ifs at hswap
  obtain ⟨rfl, -⟩ := Prod.mk.inj (Option.some.inj hswap)
  have hi' := List.mem_range.mp (List.mem_of_mem_filter hi)
  exact swapAt_perm hi' (List.mem_range.mp hj)

theorem repair_perm (items : List ItemKeys) (limits : List Limits) (bound : Reach)
    (preceding : List ItemKeys) (rounds : ℕ) (order : List ℕ) (best : ℕ) :
    (repair items limits bound preceding rounds order best).1.Perm order := by
  induction rounds generalizing order best with
  | zero => exact .refl _
  | succ rounds ih =>
    rw [repair]
    split_ifs
    · exact .refl _
    · split
      · next order' best' hswap => exact (ih order' best').trans (improvingSwap_perm hswap)
      · exact .refl _

/-- The order the pass answers is a permutation of the list's positions. -/
theorem orderConstrained_perm (items : List ItemKeys) (limits : List Limits)
    (preceding : List ItemKeys) :
    (orderConstrained items limits preceding).order.Perm (List.range items.length) := by
  unfold orderConstrained
  dsimp only
  split_ifs
  · exact .refl _
  · refine (repair_perm _ _ _ _ _ _ _).trans ?_
    refine (greedy_perm _ _ _ _ _ ?_).trans ?_
    · rw [List.length_range]
    · rw [List.nil_append]

end EtvStation
