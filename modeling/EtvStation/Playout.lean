import EtvStation.Tz
import Mathlib.Data.List.Basic

/-! Playout items, as the chunk files hold them. Instants are nanoseconds; in and out points,
and the lengths of bumper files, are milliseconds. -/
namespace EtvStation

def MILLISECOND : ℤ := 1000000

inductive PlayoutItemSource where
  | local_ (path : String) (inPointMs outPointMs : Option ℕ)
  | lavfi (params : String)
  | http (uri : String)
  deriving DecidableEq, Repr

/-- The mark of an item whose real file has not landed yet. -/
structure Pending where
  path : String
  loop : Bool := false
  deriving DecidableEq, Repr

/-- A playout item. `rest` is what nothing here reads: tracks, programme, overlay and the other
metadata. -/
structure PlayoutItem (β : Type) where
  id : String
  start : ℤ
  finish : ℤ
  source : Option PlayoutItemSource := none
  pending : Option Pending := none
  segment : Option String := none
  rest : β
  deriving DecidableEq, Repr

variable {β : Type}

/-- Items laid end to end from `s` to `f`. -/
def Covers : ℤ → ℤ → List (PlayoutItem β) → Prop
  | s, f, [] => s = f
  | s, f, a :: as => a.start = s ∧ a.start ≤ a.finish ∧ Covers a.finish f as

instance Covers.decidable : (s f : ℤ) → (l : List (PlayoutItem β)) → Decidable (Covers s f l)
  | s, f, [] => inferInstanceAs (Decidable (s = f))
  | s, f, a :: as =>
    have := Covers.decidable a.finish f as
    inferInstanceAs (Decidable (a.start = s ∧ a.start ≤ a.finish ∧ Covers a.finish f as))

theorem covers_append {s f : ℤ} {l m : List (PlayoutItem β)} :
    Covers s f (l ++ m) ↔ ∃ t, Covers s t l ∧ Covers t f m := by
  induction l generalizing s with
  | nil => simp [Covers]
  | cons a l ih =>
    simp only [List.cons_append, Covers, ih]
    constructor
    · rintro ⟨hs, hle, t, hl, hm⟩
      exact ⟨t, ⟨hs, hle, hl⟩, hm⟩
    · rintro ⟨t, ⟨hs, hle, hl⟩, hm⟩
      exact ⟨hs, hle, t, hl, hm⟩

theorem Covers.le {s f : ℤ} {l : List (PlayoutItem β)} (h : Covers s f l) : s ≤ f := by
  induction l generalizing s with
  | nil => exact le_of_eq h
  | cons a l ih =>
    obtain ⟨rfl, hle, hrest⟩ := h
    exact hle.trans (ih hrest)

theorem Covers.unique {s f f' : ℤ} {l : List (PlayoutItem β)} (h : Covers s f l)
    (h' : Covers s f' l) : f = f' := by
  induction l generalizing s with
  | nil => exact h.symm.trans h'
  | cons a l ih => exact ih h.2.2 h'.2.2

theorem Covers.getLast_finish {s f : ℤ} {l : List (PlayoutItem β)} (h : Covers s f l)
    {a : PlayoutItem β} (ha : l.getLast? = some a) : a.finish = f := by
  induction l generalizing s with
  | nil => simp at ha
  | cons b l ih =>
    cases l with
    | nil =>
      obtain rfl : b = a := by simpa using ha
      exact h.2.2
    | cons c l =>
      rw [List.getLast?_cons_cons] at ha
      exact ih h.2.2 ha

theorem Covers.exists_at {s f t : ℤ} {l : List (PlayoutItem β)} (h : Covers s f l) (hs : s ≤ t)
    (hf : t < f) : ∃ a ∈ l, a.start ≤ t ∧ t < a.finish := by
  induction l generalizing s with
  | nil =>
    have : s = f := h
    omega
  | cons a l ih =>
    obtain ⟨rfl, -, hrest⟩ := h
    by_cases hin : t < a.finish
    · exact ⟨a, List.mem_cons_self, hs, hin⟩
    · obtain ⟨b, hb, hat⟩ := ih hrest (by omega)
      exact ⟨b, List.mem_cons_of_mem _ hb, hat⟩

theorem Covers.mem {s f : ℤ} {l : List (PlayoutItem β)} (h : Covers s f l) {a : PlayoutItem β}
    (ha : a ∈ l) : s ≤ a.start ∧ a.start ≤ a.finish ∧ a.finish ≤ f := by
  induction l generalizing s with
  | nil => exact absurd ha List.not_mem_nil
  | cons b l ih =>
    obtain ⟨rfl, hle, hrest⟩ := h
    rcases List.mem_cons.mp ha with rfl | ha
    · exact ⟨le_rfl, hle, hrest.le⟩
    · have := ih hrest ha
      exact ⟨hle.trans this.1, this.2⟩

theorem Covers.pairwise {s f : ℤ} {l : List (PlayoutItem β)} (h : Covers s f l) :
    l.Pairwise fun a b => a.finish ≤ b.start := by
  induction l generalizing s with
  | nil => exact List.Pairwise.nil
  | cons a l ih =>
    exact List.pairwise_cons.mpr ⟨fun b hb => (h.2.2.mem hb).1, ih h.2.2⟩

/-- Of the items of a timeline those that overlap a window lie end to end. -/
theorem Covers.filter_overlap {s f lo hi : ℤ} {l : List (PlayoutItem β)} (h : Covers s f l)
    (hpos : ∀ a ∈ l, a.start < a.finish) :
    ∃ s' f', Covers s' f' (l.filter fun a => a.start < hi && lo < a.finish) ∧
      (lo < s → l.filter (fun a => a.start < hi && lo < a.finish) ≠ [] → s' = s) := by
  induction l generalizing s with
  | nil => exact ⟨s, s, rfl, fun _ hne => absurd rfl hne⟩
  | cons a l ih =>
    obtain ⟨rfl, hle, hrest⟩ := h
    obtain ⟨s', f', hcov, hstart⟩ := ih hrest fun b hb => hpos b (List.mem_cons_of_mem _ hb)
    have hlt := hpos a List.mem_cons_self
    by_cases hin : a.start < hi ∧ lo < a.finish
    · rw [List.filter_cons_of_pos (by simpa using hin)]
      by_cases hnil : l.filter (fun b => b.start < hi && lo < b.finish) = []
      · rw [hnil]
        exact ⟨a.start, a.finish, ⟨rfl, hle, rfl⟩, fun _ _ => rfl⟩
      · have := hstart hin.2 hnil
        subst this
        exact ⟨a.start, f', ⟨rfl, hle, hcov⟩, fun _ _ => rfl⟩
    · rw [List.filter_cons_of_neg (by simpa using hin)]
      refine ⟨s', f', hcov, fun hlo hne => ?_⟩
      obtain ⟨b, hb⟩ := List.exists_mem_of_ne_nil _ hne
      have hb := List.mem_filter.mp hb
      have := (hrest.mem hb.1).1
      simp only [Bool.and_eq_true, decide_eq_true_eq] at hb
      omega

end EtvStation
