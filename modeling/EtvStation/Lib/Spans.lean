import Mathlib.Data.List.Destutter
import Mathlib.Data.List.Sort
import Mathlib.Order.Lattice

/-! Things that each hold for a while, kept in order and apart: which of them holds at an instant. -/
namespace EtvStation.Lib

variable {τ α : Type} [LinearOrder τ] (lo hi : α → τ)

/-- Each thing starts after the ones before it have ended. -/
structure Apart (l : List α) : Prop where
  forward : ∀ a ∈ l, lo a ≤ hi a
  ordered : l.Pairwise fun a b => hi a ≤ lo b

/-- The last thing to start by `t`, if it still holds then. -/
def covering (l : List α) (t : τ) : Option α :=
  ((l.takeWhile fun a => lo a ≤ t).getLast?).filter fun a => t < hi a

namespace Apart

variable {lo hi} {l l' : List α}

theorem nil : Apart lo hi [] := ⟨fun _ h => absurd h List.not_mem_nil, List.Pairwise.nil⟩

theorem tail {a : α} (h : Apart lo hi (a :: l)) : Apart lo hi l :=
  ⟨fun b hb => h.forward b (List.mem_cons_of_mem _ hb), (List.pairwise_cons.mp h.ordered).2⟩

theorem filter (h : Apart lo hi l) (p : α → Bool) : Apart lo hi (l.filter p) :=
  ⟨fun a ha => h.forward a (List.mem_filter.mp ha).1, h.ordered.filter p⟩

theorem append (h : Apart lo hi l) (h' : Apart lo hi l') (hbetween : ∀ a ∈ l, ∀ b ∈ l', hi a ≤ lo b) :
    Apart lo hi (l ++ l') := by
  constructor
  · intro a ha
    exact (List.mem_append.mp ha).elim (h.forward a) (h'.forward a)
  · exact List.pairwise_append.mpr ⟨h.ordered, h'.ordered, hbetween⟩

theorem sublist (h : Apart lo hi l) (hsub : l'.Sublist l) : Apart lo hi l' :=
  ⟨fun a ha => h.forward a (hsub.mem ha), h.ordered.sublist hsub⟩

theorem map {γ : Type} (f : γ → α) {l : List γ} (h : Apart (fun c => lo (f c)) (fun c => hi (f c)) l) :
    Apart lo hi (l.map f) := by
  refine ⟨fun a ha => ?_, List.pairwise_map.mpr h.ordered⟩
  obtain ⟨c, hc, rfl⟩ := List.mem_map.mp ha
  exact h.forward c hc

/-- Of two things apart one ends by the other's start. -/
theorem before_or_after (h : Apart lo hi l) {a b : α} (ha : a ∈ l) (hb : b ∈ l) :
    a = b ∨ hi a ≤ lo b ∨ hi b ≤ lo a := by
  induction l with
  | nil => exact absurd ha List.not_mem_nil
  | cons c l ih =>
    have hafter := (List.pairwise_cons.mp h.ordered).1
    rcases List.mem_cons.mp ha with hac | hal
    · rcases List.mem_cons.mp hb with hbc | hbl
      · exact Or.inl (hac.trans hbc.symm)
      · rw [hac]
        exact Or.inr (Or.inl (hafter b hbl))
    · rcases List.mem_cons.mp hb with hbc | hbl
      · rw [hbc]
        exact Or.inr (Or.inr (hafter a hal))
      · exact ih h.tail hal hbl

/-- Things apart are in the order they start. -/
theorem sorted (h : Apart lo hi l) : l.Pairwise fun a b => lo a ≤ lo b :=
  h.ordered.imp_of_mem fun ha _ hab => (h.forward _ ha).trans hab

/-- At most one thing holds at a time. -/
theorem unique (h : Apart lo hi l) {a b : α} {t : τ} (ha : a ∈ l) (hb : b ∈ l) (hat : lo a ≤ t)
    (hta : t < hi a) (hbt : lo b ≤ t) (htb : t < hi b) : a = b := by
  induction l with
  | nil => exact absurd ha List.not_mem_nil
  | cons c l ih =>
    have hafter := (List.pairwise_cons.mp h.ordered).1
    rcases List.mem_cons.mp ha with hac | hal
    · rcases List.mem_cons.mp hb with hbc | hbl
      · exact hac.trans hbc.symm
      · have hle := hafter b hbl
        rw [← hac] at hle
        exact absurd (hta.trans_le (hle.trans hbt)) (lt_irrefl t)
    · rcases List.mem_cons.mp hb with hbc | hbl
      · have hle := hafter a hal
        rw [← hbc] at hle
        exact absurd (htb.trans_le (hle.trans hat)) (lt_irrefl t)
      · exact ih h.tail hal hbl

/-- What has started by an instant is what was before the thing that holds then, and that thing. -/
theorem takeWhile_eq {before after : List α} {a : α} (h : Apart lo hi (before ++ a :: after)) {t : τ}
    (hat : lo a ≤ t) (hta : t < hi a) :
    (before ++ a :: after).takeWhile (fun b => lo b ≤ t) = before ++ [a] := by
  have hsorted := List.pairwise_append.mp h.sorted
  have hordered := List.pairwise_append.mp h.ordered
  have hbefore : ∀ b ∈ before, decide (lo b ≤ t) = true := fun b hb =>
    decide_eq_true ((hsorted.2.2 b hb a List.mem_cons_self).trans hat)
  have hnext : after.takeWhile (fun b => lo b ≤ t) = [] := by
    cases after with
    | nil => rfl
    | cons b after =>
      have hle := (List.pairwise_cons.mp hordered.2.1).1 b List.mem_cons_self
      exact List.takeWhile_cons_of_neg (by simpa using hta.trans_le hle)
  rw [List.takeWhile_append_of_pos hbefore, List.takeWhile_cons_of_pos (by simpa using hat), hnext]

/-- What holds at `t` is found. -/
theorem covering_eq_some_iff (h : Apart lo hi l) {t : τ} {a : α} :
    covering lo hi l t = some a ↔ a ∈ l ∧ lo a ≤ t ∧ t < hi a := by
  constructor
  · intro hfound
    obtain ⟨hlast, hend⟩ := Option.filter_eq_some_iff.mp hfound
    have hmem := List.mem_of_getLast? hlast
    have hstarts := List.all_eq_true.mp List.all_takeWhile a hmem
    exact ⟨(List.takeWhile_sublist _).mem hmem, of_decide_eq_true hstarts, of_decide_eq_true hend⟩
  · rintro ⟨ha, hat, hta⟩
    obtain ⟨before, after, rfl⟩ := List.append_of_mem ha
    rw [covering, h.takeWhile_eq hat hta, List.getLast?_append, List.getLast?_singleton]
    exact Option.filter_eq_some_iff.mpr ⟨rfl, decide_eq_true hta⟩

theorem covering_eq_none_iff (h : Apart lo hi l) {t : τ} :
    covering lo hi l t = none ↔ ∀ a ∈ l, lo a ≤ t → hi a ≤ t := by
  rw [Option.eq_none_iff_forall_ne_some]
  constructor
  · intro hnone a ha hat
    by_contra hta
    exact hnone a (h.covering_eq_some_iff.mpr ⟨ha, hat, not_le.mp hta⟩)
  · intro hall a hfound
    obtain ⟨ha, hat, hta⟩ := h.covering_eq_some_iff.mp hfound
    exact absurd hta (not_lt.mpr (hall a ha hat))

end Apart

section Repeats

variable {key : α → τ} {x : α} {l rest : List α}

/-- A sorted list that repeats things of distinct keys begins with the first of them. -/
theorem head_eq_of_sorted {z : α} (hsorted : (x :: l).Pairwise fun a b => key a ≤ key b)
    (hrest : (z :: rest).Pairwise fun a b => key a < key b)
    (hmem : ∀ a, a ∈ x :: l ↔ a ∈ z :: rest) : x = z := by
  rcases List.mem_cons.mp ((hmem x).mp List.mem_cons_self) with hx | hx
  · exact hx
  rcases List.mem_cons.mp ((hmem z).mpr List.mem_cons_self) with hz | hz
  · exact hz.symm
  have hlt := (List.pairwise_cons.mp hrest).1 x hx
  exact absurd ((List.pairwise_cons.mp hsorted).1 z hz) (not_le.mpr hlt)

/-- The first of each key of such a list are the things in order. -/
theorem destutter'_eq (hsorted : (x :: l).Pairwise fun a b => key a ≤ key b)
    (hrest : (x :: rest).Pairwise fun a b => key a < key b)
    (hmem : ∀ a, a ∈ x :: l ↔ a ∈ x :: rest) :
    l.destutter' (fun a b => key a ≠ key b) x = x :: rest := by
  induction l generalizing x rest with
  | nil =>
    cases rest with
    | nil => rfl
    | cons b rest =>
      have hb := (hmem b).mpr (List.mem_cons_of_mem _ List.mem_cons_self)
      have hlt := (List.pairwise_cons.mp hrest).1 b List.mem_cons_self
      rw [List.mem_singleton.mp hb] at hlt
      exact absurd hlt (lt_irrefl _)
  | cons b l ih =>
    obtain ⟨hle, htail⟩ := List.pairwise_cons.mp hsorted
    obtain ⟨hafter, hrest'⟩ := List.pairwise_cons.mp hrest
    by_cases hkey : key x = key b
    · -- A repeat of `x`, since nothing after it has its key.
      have hsame : b = x := by
        rcases List.mem_cons.mp ((hmem b).mp (List.mem_cons_of_mem _ List.mem_cons_self)) with hb | hb
        · exact hb
        · exact absurd (hafter b hb) (not_lt.mpr hkey.ge)
      rw [List.destutter'_cons_neg _ (not_not.mpr hkey)]
      refine ih (List.pairwise_cons.mpr ⟨fun a ha => hle a (List.mem_cons_of_mem _ ha),
        (List.pairwise_cons.mp htail).2⟩) hrest fun a => ?_
      rw [← hmem a, hsame]
      simp only [List.mem_cons, or_self_left]
    · have hlt : key x < key b := lt_of_le_of_ne (hle b List.mem_cons_self) hkey
      have hleft : ∀ a, a ∈ b :: l ↔ a ∈ rest := by
        intro a
        constructor
        · intro ha
          have hxa : key x < key a := by
            rcases List.mem_cons.mp ha with rfl | hal
            · exact hlt
            · exact hlt.trans_le ((List.pairwise_cons.mp htail).1 a hal)
          refine (List.mem_cons.mp ((hmem a).mp (List.mem_cons_of_mem _ ha))).resolve_left ?_
          rintro rfl
          exact lt_irrefl _ hxa
        · intro ha
          refine (List.mem_cons.mp ((hmem a).mpr (List.mem_cons_of_mem _ ha))).resolve_left ?_
          rintro rfl
          exact lt_irrefl _ (hafter a ha)
      rw [List.destutter'_cons_pos _ hkey]
      cases rest with
      | nil => exact absurd ((hleft b).mp List.mem_cons_self) List.not_mem_nil
      | cons z rest =>
        obtain rfl := head_eq_of_sorted htail hrest' hleft
        rw [ih htail hrest' hleft]

end Repeats

/-- Pieces that name the same things, sorted and the first of each key kept, are those things. -/
theorem rebuild {key : α → τ} {l pieces : List α} (hstrict : l.Pairwise fun a b => key a < key b)
    (hmem : ∀ a, a ∈ pieces ↔ a ∈ l) :
    (pieces.insertionSort fun a b => key a ≤ key b).destutter (fun a b => key a ≠ key b) = l := by
  have hperm := List.perm_insertionSort (fun a b => key a ≤ key b) pieces
  have hsorted := List.pairwise_insertionSort (fun a b => key a ≤ key b) pieces
  have hsame : ∀ a, a ∈ pieces.insertionSort (fun a b => key a ≤ key b) ↔ a ∈ l := fun a =>
    hperm.mem_iff.trans (hmem a)
  generalize pieces.insertionSort (fun a b => key a ≤ key b) = sorted at hsorted hsame
  cases sorted with
  | nil =>
    refine (List.eq_nil_iff_forall_not_mem.mpr fun a ha => ?_).symm
    exact List.not_mem_nil ((hsame a).mpr ha)
  | cons x rest =>
    cases l with
    | nil => exact absurd ((hsame x).mp List.mem_cons_self) List.not_mem_nil
    | cons z l =>
      obtain rfl := head_eq_of_sorted hsorted hstrict hsame
      rw [List.destutter_cons', destutter'_eq hsorted hstrict hsame]

/-- The last of a list's things of a kind. -/
theorem exists_last {α : Type} {p : α → Prop} {l : List α} (h : ∃ a ∈ l, p a) :
    ∃ before a after, l = before ++ a :: after ∧ p a ∧ ∀ b ∈ after, ¬ p b := by
  induction l with
  | nil =>
    obtain ⟨a, ha, -⟩ := h
    exact absurd ha List.not_mem_nil
  | cons c l ih =>
    by_cases hlater : ∃ a ∈ l, p a
    · obtain ⟨before, a, after, rfl, ha, hafter⟩ := ih hlater
      exact ⟨c :: before, a, after, rfl, ha, hafter⟩
    · obtain ⟨a, ha, hpa⟩ := h
      rcases List.mem_cons.mp ha with rfl | ha
      · exact ⟨[], a, l, rfl, hpa, fun b hb hpb => hlater ⟨b, hb, hpb⟩⟩
      · exact absurd ⟨a, ha, hpa⟩ hlater

end EtvStation.Lib
