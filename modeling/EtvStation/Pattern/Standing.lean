import EtvStation.Pattern.Draws
import EtvStation.Pattern.Runtime

/-! Where a series stands: after the last of its items that was drawn. The ledger's cursor
and the live one are both read off that item, so they agree. -/
namespace EtvStation

/-- The series continued after `last`; an id it does not hold leaves it as it is. -/
def Series.seatAfter (last : Option EntryId) (s : Series) : Series :=
  match last.bind fun last => s.ids.idxOf? last with
  | some pos => s.advanceTo (pos + 1)
  | none => s

namespace Series

@[simp] theorem seatAfter_none (s : Series) : s.seatAfter none = s := rfl

theorem seatAfter_ids (last : Option EntryId) (s : Series) : (s.seatAfter last).ids = s.ids := by
  unfold seatAfter
  split <;> rfl

theorem seatAfter_key (last : Option EntryId) (s : Series) : (s.seatAfter last).key = s.key := by
  unfold seatAfter
  split <;> rfl

theorem seatAfter_showKey (last : Option EntryId) (s : Series) :
    (s.seatAfter last).showKey = s.showKey := by
  unfold seatAfter
  split <;> rfl

/-- A later seat on an item of the series replaces an earlier one. -/
theorem seatAfter_seatAfter {s : Series} {x : EntryId} (hx : x ∈ s.ids) (last : Option EntryId) :
    (s.seatAfter last).seatAfter (some x) = s.seatAfter (some x) := by
  cases hpos : s.ids.idxOf? x with
  | none => exact absurd hx (by simpa using hpos)
  | some pos =>
    have hids := seatAfter_ids last s
    have hadvance : ∀ n, (s.seatAfter last).advanceTo n = s.advanceTo n := fun n => by
      unfold seatAfter
      split <;> rfl
    unfold seatAfter at hids ⊢
    simp only [Option.bind_some]
    rw [hids, hpos]
    exact hadvance _

/-- Past the last id of a slice is where the slice leaves its series. -/
theorem seatAfter_slice {s : Series} (hnodup : s.ids.Nodup) {c : ℕ} {taken : List EntryId}
    (htaken : taken = (s.ids.drop c).take taken.length) (hne : taken ≠ []) :
    s.seatAfter taken.getLast? = s.advanceTo (c + taken.length) := by
  have hpos := List.length_pos_iff.mpr hne
  have hlen : taken.length ≤ s.ids.length - c := by
    have := congrArg List.length htaken
    simp only [List.length_take, List.length_drop] at this
    omega
  have hlt : c + (taken.length - 1) < s.ids.length := by omega
  have hlast : taken.getLast? = some s.ids[c + (taken.length - 1)] := by
    have hget := congrArg (fun l => l[taken.length - 1]?) htaken
    simp only [List.getElem?_take, List.getElem?_drop] at hget
    rw [List.getLast?_eq_getElem?, hget, if_pos (by omega), List.getElem?_eq_getElem hlt]
  have hidx : s.ids.idxOf? s.ids[c + (taken.length - 1)] = some (c + (taken.length - 1)) := by
    rw [List.idxOf?_eq_some_iff]
    refine ⟨hlt, rfl, fun j hj heq => ?_⟩
    have := (List.Nodup.getElem_inj_iff hnodup).mp heq
    omega
  simp only [seatAfter, hlast, Option.bind_some, hidx]
  congr 1
  omega

/-- What the ledger cannot tell of a series of one: whether it has just been played through. -/
def core (s : Series) : Series := { s with finished := s.finished && 1 < s.ids.length }

end Series

theorem Drew.mem_ids {placed : Bool} {l l' : List Series} {draws : List (ℕ × List EntryId)}
    (h : Drew placed l draws l') {x : EntryId} (hx : x ∈ draws.flatMap Prod.snd) :
    ∃ (j : ℕ) (s : Series), l[j]? = some s ∧ x ∈ s.ids := by
  induction h with
  | nil => simp at hx
  | @cons l l' si c s taken rest hs _ _ htaken _ _ ih =>
    rw [List.flatMap_cons, List.mem_append] at hx
    rcases hx with hx | hx
    · refine ⟨si, s, hs, ?_⟩
      rw [htaken] at hx
      exact List.mem_of_mem_drop (List.mem_of_mem_take hx)
    · obtain ⟨j, t, ht, hxt⟩ := ih hx
      rw [List.getElem?_set] at ht
      split_ifs at ht with hj
      · obtain rfl := Option.some.inj ht
        exact ⟨si, s, hs, hxt⟩
      · exact ⟨j, t, ht, hxt⟩

/-- After its draws a series stands past the last id drawn that is its own. -/
theorem Drew.seatAfter {placed : Bool} {l l' : List Series} {draws : List (ℕ × List EntryId)}
    (h : Drew placed l draws l') (hnodup : ∀ s ∈ l, s.ids.Nodup) {i : ℕ} {own : EntryId → Bool}
    (hown : ∀ j s, l[j]? = some s → ∀ x ∈ s.ids, own x = decide (j = i)) :
    l'[i]? = (l[i]?).map (Series.seatAfter ((draws.flatMap Prod.snd).filter own).getLast?) := by
  induction h with
  | nil l =>
    cases hi : l[i]? <;> simp
  | @cons l l' si c s taken rest hs hc _ htaken hne hrest ih =>
    have hmem := List.mem_of_getElem? hs
    obtain ⟨hlt, hsget⟩ := List.getElem?_eq_some_iff.mp hs
    have hsub : ∀ x ∈ taken, x ∈ s.ids := fun x hx => by
      rw [htaken] at hx
      exact List.mem_of_mem_drop (List.mem_of_mem_take hx)
    have hdrawn : ∀ x ∈ rest.flatMap Prod.snd, own x = true → si = i → x ∈ s.ids := by
      rintro x hx hxown rfl
      obtain ⟨j, t, ht, hxt⟩ := hrest.mem_ids hx
      rw [List.getElem?_set] at ht
      split_ifs at ht with hj
      · obtain rfl := Option.some.inj ht
        exact hxt
      · simp [hown j t ht x hxt, Ne.symm hj] at hxown
    have ih' := ih
      (fun t ht => by
        rcases List.mem_or_eq_of_mem_set ht with ht | rfl
        · exact hnodup t ht
        · exact hnodup s hmem)
      (fun j t ht x hx => by
        rw [List.getElem?_set] at ht
        split_ifs at ht with hj
        · obtain rfl := Option.some.inj ht
          exact hown j s (hj ▸ hs) x hx
        · exact hown j t ht x hx)
    rw [ih', List.flatMap_cons, List.filter_append, List.getLast?_append]
    by_cases hi : si = i
    · subst hi
      have hall : taken.filter own = taken :=
        List.filter_eq_self.mpr fun x hx => by simp [hown si s hs x (hsub x hx)]
      rw [hall, List.getElem?_set_self hlt, hs, ← Series.seatAfter_slice (hnodup s hmem) htaken hne]
      simp only [Option.map_some]
      cases hlast : ((rest.flatMap Prod.snd).filter own).getLast? with
      | none => rfl
      | some x =>
        obtain ⟨hx, hxown⟩ := List.mem_filter.mp (List.mem_of_getLast? hlast)
        rw [Option.some_or, Series.seatAfter_seatAfter (hdrawn x hx hxown rfl)]
    · have hnone : taken.filter own = [] :=
        List.filter_eq_nil_iff.mpr fun x hx => by simp [hown si s hs x (hsub x hx), hi]
      rw [hnone, List.getElem?_set_ne hi]
      simp

end EtvStation
