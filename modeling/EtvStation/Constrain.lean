import EtvStation.Config
import EtvStation.Lib.Window
import Mathlib.Algebra.GroupWithZero.Nat
import Mathlib.Data.Nat.Basic
import Mathlib.Order.Lattice

/-! The adjacency pass: how far apart two items stand, whether that is too close, and the
greedy ordering with its swap repair. Histories are oldest first, as the source keeps them. -/
namespace EtvStation

structure ItemKeys where
  id : EntryId
  group : List String := []
  duration : ℕ := 0
  deriving DecidableEq, Repr

def ItemKeys.sharesGroupWith (a b : ItemKeys) : Bool :=
  !a.group.isEmpty && !b.group.isEmpty && a.group.any fun v => b.group.contains v

/-- `positions 0` is the unconstrained sentinel. -/
inductive RepeatGap where
  | positions (n : ℕ)
  | duration (d : ℕ)
  deriving DecidableEq, Repr

structure Reach where
  positions : ℕ := 0
  duration : ℕ := 0
  deriving DecidableEq, Repr

def Reach.isUnconstrained (r : Reach) : Bool :=
  r.positions == 0 && r.duration == 0

def Reach.widen (a b : Reach) : Reach where
  positions := max a.positions b.positions
  duration := max a.duration b.duration

structure Limits where
  noRepeat : RepeatGap := .positions 0
  separate : ℕ := 0
  deriving DecidableEq, Repr

def Limits.reach (l : Limits) : Reach :=
  match l.noRepeat with
  | .positions n => { positions := max n l.separate }
  | .duration d => { positions := l.separate, duration := d }

def Limits.isUnconstrained (l : Limits) : Bool := l.reach.isUnconstrained

/-- How far back an item sits, counted in list positions and in air time. -/
structure Distance where
  positions : ℕ := 0
  elapsed : ℕ := 0
  deriving DecidableEq, Repr

instance : Preorder Distance := Preorder.lift fun d => (d.positions, d.elapsed)

theorem Distance.le_def {a b : Distance} :
    a ≤ b ↔ a.positions ≤ b.positions ∧ a.elapsed ≤ b.elapsed := Iff.rfl

/-- An axis left at zero is off, so it is exhausted at once. -/
def axesExhausted (d : Distance) (bound : Reach) : Bool :=
  d.positions > bound.positions && (bound.duration == 0 || d.elapsed > bound.duration)

def gapConflict (gap : RepeatGap) (d : Distance) : Bool :=
  match gap with
  | .positions n => n > 0 && d.positions ≤ n
  | .duration within => within != 0 && d.elapsed ≤ within

/-- Two items `d` apart conflict under the stricter of their two limits. -/
def conflict (a b : ItemKeys) (la lb : Limits) (d : Distance) : Bool :=
  (a.id == b.id && (gapConflict la.noRepeat d || gapConflict lb.noRepeat d)) ||
    (d.positions ≤ max la.separate lb.separate && a.sharesGroupWith b)

/-- The distance of the item before one that stands at `d`. -/
def Distance.past (d : Distance) (item : ItemKeys) : Distance where
  positions := d.positions + 1
  elapsed := d.elapsed + item.duration

/-- The backward walk under `bound`, as a walk through a history. -/
def backward (bound : Reach) : Lib.Reckoning ItemKeys Distance where
  step := Distance.past
  spent d := axesExhausted d bound
  le_step d a := ⟨Nat.le_succ _, Nat.le_add_right _ _⟩
  step_mono a d d' h := ⟨Nat.succ_le_succ h.1, Nat.add_le_add_right h.2 _⟩
  spent_mono {d d'} h hd := by
    have hle := Distance.le_def.mp h
    simp only [axesExhausted, gt_iff_lt, Bool.and_eq_true, decide_eq_true_eq, Bool.or_eq_true,
      beq_iff_eq] at hd ⊢
    omega

/-- `history` walked from its newest item, as far as `bound` reaches. -/
def walkBack (history : List ItemKeys) (bound : Reach) : List (ItemKeys × Distance) :=
  (backward bound).reached {} history.reverse

def historyNeeded (history : List ItemKeys) (limits : Limits) : ℕ :=
  if limits.isUnconstrained then 0 else (walkBack history limits.reach).length

/-- Only the candidate's own limits apply to what has already aired. -/
def conflictsWithRecent (recent : List ItemKeys) (cand : ItemKeys) (limits : Limits) : Bool :=
  if limits.isUnconstrained then false
  else (walkBack recent limits.reach).any fun (prev, d) => conflict cand prev limits {} d

/-- Drop what a later check can no longer reach. -/
def trimRecent (recent : List ItemKeys) (limits : Limits) : List ItemKeys :=
  recent.drop (recent.length - historyNeeded recent limits)

/-- `trimRecent recent limits` answers every check as the whole `history` does. -/
def AnswersLike (limits : Limits) (recent history : List ItemKeys) : Prop :=
  (backward limits.reach).Keeps {} recent.reverse history.reverse

section Trimming

variable {limits : Limits} {recent history : List ItemKeys}

theorem AnswersLike.refl (limits : Limits) (history : List ItemKeys) :
    AnswersLike limits history history := Lib.Reckoning.Keeps.refl _ _

theorem AnswersLike.walkBack_eq (h : AnswersLike limits recent history) :
    walkBack recent limits.reach = walkBack history limits.reach :=
  Lib.Reckoning.Keeps.reached_eq h (le_refl _)

theorem AnswersLike.conflictsWithRecent_eq (h : AnswersLike limits recent history)
    (cand : ItemKeys) :
    conflictsWithRecent recent cand limits = conflictsWithRecent history cand limits := by
  simp only [conflictsWithRecent, h.walkBack_eq]

theorem AnswersLike.push (h : AnswersLike limits recent history) (fresh : List ItemKeys) :
    AnswersLike limits (recent ++ fresh) (history ++ fresh) := by
  simpa only [AnswersLike, List.reverse_append] using Lib.Reckoning.Keeps.append h fresh.reverse

theorem trimRecent_reverse (hl : limits.isUnconstrained = false) (recent : List ItemKeys) :
    (trimRecent recent limits).reverse =
      recent.reverse.take (walkBack recent limits.reach).length := by
  have hle : (walkBack recent limits.reach).length ≤ recent.length := by
    simpa [walkBack] using (backward limits.reach).reached_length_le {} recent.reverse
  simp only [trimRecent, historyNeeded, hl, Bool.false_eq_true, if_false, List.reverse_drop]
  congr 1
  omega

/-- Trimming after a draw loses nothing that a later check could see. -/
theorem AnswersLike.trim (hl : limits.isUnconstrained = false)
    (h : AnswersLike limits recent history) :
    AnswersLike limits (trimRecent recent limits) history := by
  rw [AnswersLike, trimRecent_reverse hl]
  exact Lib.Reckoning.Keeps.trim h

end Trimming

/-- The backward look of `violates`: through what the pass placed, then over the seam under
the candidate's own reach, both counted from the candidate's position. -/
def violates (out : List ℕ) (cand : ℕ) (items : List ItemKeys) (limits : List Limits)
    (bound : Reach) (preceding : List ItemKeys) : Bool :=
  let me := items.getD cand ⟨"", [], 0⟩
  let mine := limits.getD cand {}
  let placed := out.reverse.map fun p => (items.getD p ⟨"", [], 0⟩, limits.getD p {})
  go me mine {} placed
where
  go (me : ItemKeys) (mine : Limits) (d : Distance) : List (ItemKeys × Limits) → Bool
    | [] => seam me mine d preceding.reverse
    | (prev, theirs) :: rest =>
      let d := d.past prev
      if axesExhausted d bound then false
      else conflict me prev mine theirs d || go me mine d rest
  seam (me : ItemKeys) (mine : Limits) (d : Distance) : List ItemKeys → Bool
    | [] => false
    | prev :: rest =>
      let d := d.past prev
      if axesExhausted d mine.reach then false
      else conflict me prev mine {} d || seam me mine d rest

/-- The conflicts an item of the finished order has, with what stands after it and with what
aired before the list. -/
def conflictsAt (order : List ℕ) (items : List ItemKeys) (limits : List Limits) (bound : Reach)
    (preceding : List ItemKeys) (i : ℕ) : ℕ × ℕ :=
  let me := items.getD (order.getD i 0) ⟨"", [], 0⟩
  let mine := limits.getD (order.getD i 0) {}
  let ahead := (order.drop (i + 1)).map fun p => (items.getD p ⟨"", [], 0⟩, limits.getD p {})
  let placed : Distance :=
    ⟨i, ((order.take i).map fun p => (items.getD p ⟨"", [], 0⟩).duration).sum⟩
  (forward me mine ⟨0, me.duration⟩ ahead,
    (((backward mine.reach).reached placed preceding.reverse).filter fun (prev, d) =>
      conflict me prev mine {} d).length)
where
  /-- `d` is where the previous item stood, its own running time included. -/
  forward (me : ItemKeys) (mine : Limits) (d : Distance) : List (ItemKeys × Limits) → ℕ
    | [] => 0
    | (next, theirs) :: rest =>
      let place : Distance := ⟨d.positions + 1, d.elapsed⟩
      if axesExhausted place bound then 0
      else (if conflict me next mine theirs place then 1 else 0) +
        forward me mine ⟨place.positions, place.elapsed + next.duration⟩ rest

def violationCount (order : List ℕ) (items : List ItemKeys) (limits : List Limits)
    (bound : Reach) (preceding : List ItemKeys) : ℕ :=
  ((List.range order.length).map fun i =>
    let (ahead, behind) := conflictsAt order items limits bound preceding i
    ahead + behind).sum

/-- A conflicting pair is found at the earlier of its two positions. -/
def violatingPositions (order : List ℕ) (items : List ItemKeys) (limits : List Limits)
    (bound : Reach) (preceding : List ItemKeys) : List ℕ :=
  (List.range order.length).filter fun i =>
    let (ahead, behind) := conflictsAt order items limits bound preceding i
    ahead > 0 || behind > 0

def MAX_REPAIR_ROUNDS : ℕ := 10000

def swapAt (order : List ℕ) (i j : ℕ) : List ℕ :=
  (order.set i (order.getD j 0)).set j (order.getD i 0)

/-- The first exchange of a clashing position that lowers the count, with its new count. -/
def improvingSwap (order : List ℕ) (items : List ItemKeys) (limits : List Limits)
    (bound : Reach) (preceding : List ItemKeys) (best : ℕ) : Option (List ℕ × ℕ) :=
  (violatingPositions order items limits bound preceding).findSome? fun i =>
    (List.range order.length).findSome? fun j =>
      if i == j then none
      else
        let swapped := swapAt order i j
        let count := violationCount swapped items limits bound preceding
        if count < best then some (swapped, count) else none

def repair (items : List ItemKeys) (limits : List Limits) (bound : Reach)
    (preceding : List ItemKeys) : (rounds : ℕ) → List ℕ → ℕ → List ℕ × ℕ
  | 0, order, best => (order, best)
  | rounds + 1, order, best =>
    if best == 0 then (order, 0)
    else
      match improvingSwap order items limits bound preceding best with
      | some (order, best) => repair items limits bound preceding rounds order best
      | none => (order, best)

/-- The greedy pass: the first pending item that does not clash is placed next, the head of
the queue when every one does. -/
def greedy (items : List ItemKeys) (limits : List Limits) (bound : Reach)
    (preceding : List ItemKeys) : (turns : ℕ) → (pending out : List ℕ) → List ℕ
  | 0, _, out => out
  | turns + 1, pending, out =>
    let pick := (pending.findIdx? fun cand =>
      !violates out cand items limits bound preceding).getD 0
    match pending[pick]? with
    | none => out
    | some cand => greedy items limits bound preceding turns (pending.eraseIdx pick) (out ++ [cand])

structure Ordering where
  order : List ℕ
  unresolved : ℕ
  deriving DecidableEq, Repr

def orderConstrained (items : List ItemKeys) (limits : List Limits)
    (preceding : List ItemKeys) : Ordering :=
  let total := items.length
  let bound := (limits.map Limits.reach).foldl Reach.widen {}
  if bound.isUnconstrained || total == 0 then ⟨List.range total, 0⟩
  else
    let out := greedy items limits bound preceding total (List.range total) []
    let best := violationCount out items limits bound preceding
    let (order, unresolved) := repair items limits bound preceding MAX_REPAIR_ROUNDS out best
    ⟨order, unresolved⟩

end EtvStation
