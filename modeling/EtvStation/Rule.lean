import EtvStation.Playout
import EtvStation.Lib.F64

/-! The one emission model: a resolved list played once, end to end, from a given start. -/
namespace EtvStation

/-- A resolved item. `bumper` is the whole playout item the align/fill pass stored for it, `none`
inside when the stored value does not read back as one. -/
structure ResolvedItem (β : Type) where
  id : String
  block : ℕ := 0
  source : PlayoutItemSource
  bumper : Option (Option (PlayoutItem β)) := none
  errorCard : Bool := false
  rest : β

abbrev Sequential (β : Type) := List (ResolvedItem β × ℕ)

variable {β : Type}

open Lib (F64)

namespace Sequential

/-- Wall-clock length of the whole sequence, summed as seconds. -/
def totalDuration (rule : Sequential β) : ℤ := (F64.totalSecs (rule.map Prod.snd)).toNanos

/-- How far the walk of `itemSpans` gets. -/
def walked (rule : Sequential β) : ℤ := ((rule.map Prod.snd).sum : ℕ)

/-- Each item with its `(start, finish)` when the sequence begins at `start`. The walk goes on by
one item's seconds at a time, which below some 97 days are its length (`F64.toNanos_asSecs`). -/
def itemSpans : ℤ → Sequential β → List (ResolvedItem β × ℤ × ℤ)
  | _, [] => []
  | start, (item, dur) :: rest => (item, start, start + dur) :: itemSpans (start + dur) rest

end Sequential

def buildPlayoutItem (item : ResolvedItem β) (start finish : ℤ) : PlayoutItem β :=
  match item.bumper with
  | some (some bumper) => { bumper with start, finish }
  | _ => { id := item.id, start, finish, source := some item.source, rest := item.rest }

/-- The items that overlap `[from_, to)`, each whole. -/
def Sequential.itemsCovering (rule : Sequential β) (start from_ to_ : ℤ) : List (PlayoutItem β) :=
  if rule.isEmpty || to_ ≤ from_ then []
  else
    (((rule.itemSpans start).takeWhile fun e => e.2.1 < to_).filter fun e => from_ < e.2.2).map
      fun e => buildPlayoutItem e.1 e.2.1 e.2.2

/-- How many whole items to skip, and how far into the next, past `remaining`. -/
def phaseIn : ℕ → List ℕ → F64 → ℕ × ℕ
  | _, [], _ => (0, 0)
  | i, dur :: durs, remaining =>
    if remaining.units < (F64.asSecs dur).units then (i, remaining.toNanos)
    else phaseIn (i + 1) durs (remaining.sub (F64.asSecs dur))

/-- Where a list on repeat since `anchor` stands at `now`; the top for an anchor not yet past. -/
def phaseAt (anchor now : ℤ) (durations : List ℕ) : ℕ × ℕ :=
  let total := F64.totalSecs durations
  if total.units = 0 ∨ now ≤ anchor then (0, 0)
  else phaseIn 0 durations ((F64.asSecs (now - anchor).toNat).rem total)

@[simp] theorem buildPlayoutItem_start (item : ResolvedItem β) (start finish : ℤ) :
    (buildPlayoutItem item start finish).start = start := by
  unfold buildPlayoutItem
  split <;> rfl

@[simp] theorem buildPlayoutItem_finish (item : ResolvedItem β) (start finish : ℤ) :
    (buildPlayoutItem item start finish).finish = finish := by
  unfold buildPlayoutItem
  split <;> rfl

namespace Sequential

/-- Every item takes time, and the total is what the items come to. -/
def Measured (rule : Sequential β) : Prop :=
  (∀ e ∈ rule, 0 < e.2) ∧ rule.totalDuration = rule.walked

instance (rule : Sequential β) : Decidable rule.Measured := inferInstanceAs (Decidable (_ ∧ _))

/-- The two agree where every length is of whole seconds. -/
theorem totalDuration_whole {rule : Sequential β} (hwhole : ∀ e ∈ rule, F64.NANOS ∣ e.2)
    (hsum : (rule.map Prod.snd).sum < 2 ^ 53 * F64.NANOS) : rule.totalDuration = rule.walked := by
  refine congrArg Nat.cast (F64.totalSecs_whole (fun d hd => ?_) hsum)
  obtain ⟨e, he, rfl⟩ := List.mem_map.mp hd
  exact hwhole e he

/-- The two are never apart by more nanoseconds than there are items. -/
theorem totalDuration_near {rule : Sequential β}
    (h : (rule.map Prod.snd).sum + rule.length < 2 ^ 23 * F64.NANOS) :
    rule.totalDuration ≤ rule.walked + rule.length ∧
      rule.walked ≤ rule.totalDuration + rule.length := by
  rw [← List.length_map Prod.snd] at h
  have hnear := F64.totalSecs_near h
  rw [List.length_map] at hnear
  unfold totalDuration walked
  omega

theorem walked_append (r r' : Sequential β) :
    walked (r ++ r') = walked r + walked r' := by
  simp [walked]

theorem itemSpans_append (start : ℤ) (r r' : Sequential β) :
    itemSpans start (r ++ r') = itemSpans start r ++ itemSpans (start + walked r) r' := by
  induction r generalizing start with
  | nil => simp [itemSpans, walked]
  | cons e r ih =>
    obtain ⟨item, dur⟩ := e
    have htotal : start + dur + walked r = start + walked ((item, dur) :: r) := by
      simp only [walked, List.map_cons, List.sum_cons]
      push_cast
      ring
    rw [List.cons_append, itemSpans, ih, htotal, itemSpans, List.cons_append]

theorem map_itemSpans (start : ℤ) (rule : Sequential β) :
    (itemSpans start rule).map Prod.fst = rule.map Prod.fst := by
  induction rule generalizing start with
  | nil => rfl
  | cons e rule ih =>
    obtain ⟨item, dur⟩ := e
    simp [itemSpans, ih]

/-- A span of the walk is one item of the list, laid after those before it. -/
theorem mem_itemSpans {start : ℤ} {rule : Sequential β} {e : ResolvedItem β × ℤ × ℤ}
    (h : e ∈ itemSpans start rule) : start ≤ e.2.1 ∧ e.2.1 ≤ e.2.2 ∧
      e.2.2 ≤ start + walked rule ∧ ∃ dur : ℕ, (e.1, dur) ∈ rule ∧ e.2.2 = e.2.1 + dur := by
  induction rule generalizing start with
  | nil => exact absurd h List.not_mem_nil
  | cons d rule ih =>
    obtain ⟨item, dur⟩ := d
    have htotal : walked ((item, dur) :: rule) = dur + walked rule := by
      simp only [walked, List.map_cons, List.sum_cons]
      push_cast
      rfl
    have hnonneg : 0 ≤ walked rule := by
      unfold walked
      positivity
    rcases List.mem_cons.mp h with rfl | h
    · refine ⟨le_rfl, ?_, ?_, dur, List.mem_cons_self, rfl⟩
      · show start ≤ start + dur
        omega
      · show start + dur ≤ _
        rw [htotal]
        omega
    · obtain ⟨hstart, hle, hfinish, dur', hmem, heq⟩ := ih h
      rw [htotal]
      exact ⟨by omega, hle, by omega, dur', List.mem_cons_of_mem _ hmem, heq⟩

theorem itemSpans_pairwise (start : ℤ) (rule : Sequential β) :
    (itemSpans start rule).Pairwise fun a b => a.2.2 ≤ b.2.1 := by
  induction rule generalizing start with
  | nil => exact List.Pairwise.nil
  | cons d rule ih =>
    obtain ⟨item, dur⟩ := d
    refine List.pairwise_cons.mpr ⟨fun e he => ?_, ih _⟩
    exact (mem_itemSpans he).1

/-- The walk stops at the first item past the window, and none after it is inside. -/
theorem itemsCovering_eq_filter (rule : Sequential β) {start from_ to_ : ℤ} (h : from_ < to_) :
    rule.itemsCovering start from_ to_ =
      ((rule.itemSpans start).filter fun e => e.2.1 < to_ && from_ < e.2.2).map
        fun e => buildPlayoutItem e.1 e.2.1 e.2.2 := by
  have htake : ∀ l : List (ResolvedItem β × ℤ × ℤ),
      (l.Pairwise fun a b => a.2.1 ≤ b.2.1) →
      l.takeWhile (fun e => e.2.1 < to_) = l.filter fun e => e.2.1 < to_ := by
    intro l hl
    induction l with
    | nil => rfl
    | cons a l ih =>
      rw [List.pairwise_cons] at hl
      by_cases ha : a.2.1 < to_
      · rw [List.takeWhile_cons_of_pos (by simpa using ha),
          List.filter_cons_of_pos (by simpa using ha), ih hl.2]
      · rw [List.takeWhile_cons_of_neg (by simpa using ha),
          List.filter_cons_of_neg (by simpa using ha)]
        refine (List.filter_eq_nil_iff.mpr fun b hb => ?_).symm
        have := hl.1 b hb
        simp only [decide_eq_true_eq]
        omega
  unfold itemsCovering
  cases rule with
  | nil => simp [itemSpans]
  | cons e rule =>
    have hordered : (itemSpans start (e :: rule)).Pairwise fun a b => a.2.1 ≤ b.2.1 :=
      (itemSpans_pairwise start (e :: rule)).imp_of_mem fun ha _ hab =>
        (mem_itemSpans ha).2.1.trans hab
    rw [if_neg (by simp; omega), htake _ hordered, List.filter_filter]
    congr 1
    refine List.filter_congr fun e _ => ?_
    rw [Bool.and_comm]

end Sequential

end EtvStation
