import Mathlib.Data.List.Rotate

/-! A list read round and round: `n` of its elements from a place, the first again after the last. -/
namespace EtvStation.Lib

variable {α : Type}

def loop (list : List α) (start n : ℕ) : List α :=
  (List.range n).filterMap fun i => list[(start + i) % list.length]?

theorem getElem?_mod {list : List α} (h : list ≠ []) (i : ℕ) :
    ∃ a, list[i % list.length]? = some a := by
  have hlt := Nat.mod_lt i (List.length_pos_iff.mpr h)
  exact ⟨list[i % list.length], List.getElem?_eq_getElem hlt⟩

@[simp] theorem length_loop {list : List α} (h : list ≠ []) (start n : ℕ) :
    (loop list start n).length = n := by
  induction n with
  | zero => rfl
  | succ n ih =>
    obtain ⟨a, ha⟩ := getElem?_mod h (start + n)
    rw [loop, List.range_succ, List.filterMap_append, List.length_append, List.filterMap_cons, ha]
    exact congrArg (· + 1) ih

/-- Reading on continues where the reading stopped. -/
theorem loop_add (list : List α) (start m n : ℕ) :
    loop list start (m + n) = loop list start m ++ loop list (start + m) n := by
  rw [loop, List.range_add, List.filterMap_append, List.filterMap_map]
  simp only [loop, Function.comp_def, Nat.add_assoc]

/-- A place counts modulo the length. -/
theorem loop_mod (list : List α) (start n : ℕ) :
    loop list (start % list.length) n = loop list start n := by
  simp only [loop, Nat.mod_add_mod]

theorem getElem?_loop {list : List α} (h : list ≠ []) (start : ℕ) {i n : ℕ} (hi : i < n) :
    (loop list start n)[i]? = list[(start + i) % list.length]? := by
  obtain ⟨a, ha⟩ := getElem?_mod h (start + i)
  have hsplit : n = i + 1 + (n - (i + 1)) := by omega
  have hlen : (loop list start (i + 1)).length = i + 1 := length_loop h start (i + 1)
  rw [hsplit, loop_add, List.getElem?_append_left (by omega), loop_add,
    List.getElem?_append_right (by rw [length_loop h]), length_loop h, ha]
  simp [loop, ha]

/-- A reading that stays inside the list is a slice of it. -/
theorem loop_eq_slice {list : List α} {start n : ℕ} (h : start + n ≤ list.length) :
    loop list start n = (list.drop start).take n := by
  induction n with
  | zero => rfl
  | succ n ih =>
    have hlt : start + n < list.length := by omega
    have hone : loop list (start + n) 1 = list[start + n]?.toList := by
      rw [loop, List.range_one]
      simp only [List.filterMap_cons, List.filterMap_nil, Nat.add_zero, Nat.mod_eq_of_lt hlt,
        List.getElem?_eq_getElem hlt, Option.toList_some]
    rw [loop_add, ih (by omega), List.take_add_one, List.getElem?_drop, hone]

theorem mem_of_mem_loop {list : List α} {start n : ℕ} {x : α} (h : x ∈ loop list start n) :
    x ∈ list := by
  obtain ⟨i, -, hi⟩ := List.mem_filterMap.mp h
  exact List.mem_of_getElem? hi

/-- A list is its elements at its places in order. -/
theorem filterMap_range (list : List α) :
    (List.range list.length).filterMap (list[·]?) = list := by
  induction list with
  | nil => rfl
  | cons a list ih =>
    rw [List.length_cons, List.range_succ_eq_map, List.filterMap_cons, List.filterMap_map]
    exact congrArg (a :: ·) ih

theorem take_rotate {list : List α} (start : ℕ) {k : ℕ} (h : k ≤ list.length) :
    (list.rotate start).take k = loop list start k := by
  induction k with
  | zero => rfl
  | succ k ih =>
    have hlt : k < (list.rotate start).length := by
      rw [List.length_rotate]
      exact h
    have hmod := Nat.mod_lt (start + k) ((Nat.zero_le k).trans_lt h)
    rw [List.take_add_one, ih (Nat.le_of_succ_le h), List.getElem?_rotate h, Nat.add_comm k start,
      loop_add, List.getElem?_eq_getElem hmod]
    simp [loop, List.getElem?_eq_getElem hmod]

theorem take_loop (list : List α) (start : ℕ) {k n : ℕ} (h : k ≤ n) :
    (loop list start n).take k = loop list start k := by
  by_cases hempty : list = []
  · rw [hempty]
    simp [loop]
  · obtain ⟨m, rfl⟩ := Nat.exists_eq_add_of_le h
    rw [loop_add, List.take_left' (length_loop hempty start k)]

theorem drop_loop (list : List α) (start : ℕ) {k n : ℕ} (h : k ≤ n) :
    (loop list start n).drop k = loop list (start + k) (n - k) := by
  by_cases hempty : list = []
  · rw [hempty]
    simp [loop]
  · obtain ⟨m, rfl⟩ := Nat.exists_eq_add_of_le h
    rw [loop_add, List.drop_left' (length_loop hempty start k), Nat.add_sub_cancel_left]

/-- No element comes again before all the others have. -/
theorem nodup_window {list : List α} (h : list.Nodup) (start n i : ℕ) :
    (((loop list start n).drop i).take list.length).Nodup := by
  have hround : ∀ start k, k ≤ list.length → (loop list start k).Nodup := by
    intro start k hk
    rw [← take_rotate start hk]
    exact (List.nodup_rotate.mpr h).sublist (List.take_sublist _ _)
  rcases Nat.le_total i n with hi | hi
  · rw [drop_loop list start hi]
    rcases Nat.le_total list.length (n - i) with hn | hn
    · rw [take_loop list _ hn]
      exact hround _ _ le_rfl
    · exact (hround _ _ hn).sublist (List.take_sublist _ _)
  · have hlen : (loop list start n).length ≤ n := by
      have hle := List.length_filterMap_le (fun i => list[(start + i) % list.length]?) (List.range n)
      rwa [List.length_range] at hle
    rw [List.drop_eq_nil_of_le (hlen.trans hi), List.take_nil]
    exact List.nodup_nil

/-- How far the reading has come once the elements at `offsets` are out, in whatever order. -/
def furthest (reached : ℕ) (offsets : List ℕ) : ℕ := offsets.foldl (fun m o => max m (o + 1)) reached

theorem le_furthest (reached : ℕ) (offsets : List ℕ) : reached ≤ furthest reached offsets := by
  induction offsets generalizing reached with
  | nil => exact le_rfl
  | cons o offsets ih => exact (le_max_left _ _).trans (ih _)

/-- No element out lies at or past the furthest. -/
theorem lt_furthest {reached o : ℕ} {offsets : List ℕ} (h : o ∈ offsets) :
    o < furthest reached offsets := by
  induction offsets generalizing reached with
  | nil => exact absurd h List.not_mem_nil
  | cons o' offsets ih =>
    rcases List.mem_cons.mp h with rfl | h
    · exact (le_max_right reached (o + 1)).trans (le_furthest _ _)
    · exact ih h

/-- Read in order, the furthest is how many are out. -/
theorem furthest_range (n : ℕ) : furthest 0 (List.range n) = n := by
  induction n with
  | zero => rfl
  | succ n ih =>
    have hfold : furthest 0 (List.range n ++ [n]) = max (furthest 0 (List.range n)) (n + 1) := by
      simp only [furthest, List.foldl_append, List.foldl_cons, List.foldl_nil]
    rw [List.range_succ, hfold, ih, max_eq_right (Nat.le_succ n)]

end EtvStation.Lib
