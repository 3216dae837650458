import Mathlib.Data.List.Range

/-! Going round `n` places from one of them, some passed over on the way. -/
namespace EtvStation.Lib

/-- Every place strictly between `a` and the `k`-th after it, going round, is one of `G`. -/
def Round (n a : ℕ) (G : ℕ → Prop) (k : ℕ) : Prop := ∀ i, 0 < i → i < k → G ((a + i) % n)

variable {n a k : ℕ} {G G' : ℕ → Prop}

theorem Round.one (n a : ℕ) (G : ℕ → Prop) : Round n a G 1 := by
  intro i hpos hlt
  omega

theorem Round.mono (h : Round n a G k) (hG : ∀ i, G i → G' i) : Round n a G' k :=
  fun i hpos hlt => hG _ (h i hpos hlt)

/-- On past the `k`-th place and the `j` after it. -/
theorem Round.on (h : Round n a G k) {c j : ℕ} (hc : c = (a + k) % n) (hat : k = 0 ∨ G c)
    (hpassed : ∀ i < j, G (((c + 1) % n + i) % n)) : Round n a G (k + 1 + j) := by
  intro i hpos hlt
  rcases Nat.lt_trichotomy i k with hi | rfl | hi
  · exact h i hpos hi
  · rw [← hc]
    exact hat.resolve_left (Nat.ne_of_gt hpos)
  · obtain ⟨m, rfl⟩ := Nat.exists_eq_add_of_lt hi
    have hm := hpassed m (by omega)
    rw [hc, Nat.mod_add_mod, Nat.add_assoc, Nat.mod_add_mod] at hm
    have hplace : a + k + (1 + m) = a + (k + m + 1) := by omega
    rwa [hplace] at hm

theorem Round.reach {c j : ℕ} (hc : c = (a + k) % n) :
    ((c + 1) % n + j) % n = (a + (k + 1 + j)) % n := by
  rw [hc, Nat.mod_add_mod, Nat.add_assoc, Nat.mod_add_mod]
  congr 1
  omega

/-- Once round, every other place was passed. -/
theorem Round.full (h : Round n a G k) (hk : 0 < k) (ha : a < n) (hback : (a + k) % n = a) {b : ℕ}
    (hb : b < n) (hne : b ≠ a) : G b := by
  have hround : n ≤ k := by
    by_contra hlt
    rcases Nat.lt_or_ge (a + k) n with hless | hmore
    · rw [Nat.mod_eq_of_lt hless] at hback
      omega
    · rw [Nat.mod_eq_sub_mod hmore, Nat.mod_eq_of_lt (by omega)] at hback
      omega
  rcases Nat.lt_or_ge a b with hless | hmore
  · have hplace := h (b - a) (by omega) (by omega)
    rwa [Nat.add_sub_cancel' hless.le, Nat.mod_eq_of_lt hb] at hplace
  · have hplace := h (b + n - a) (by omega) (by omega)
    rwa [Nat.add_sub_cancel' (by omega), Nat.add_mod_right, Nat.mod_eq_of_lt hb] at hplace

end EtvStation.Lib
