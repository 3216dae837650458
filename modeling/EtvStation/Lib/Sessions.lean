import EtvStation.Lib.Outcome

/-! A machine run in sessions: each session starts from a state reloaded from what the last
one saved. When a reloaded state simulates the one it was saved from, a chain of sessions is
one uninterrupted run. -/
namespace EtvStation.Lib

/-- A machine that emits a batch of outputs at every step, and may fail. -/
structure Machine (σ ο ε : Type) where
  step : σ → Except ε (List ο × σ)

namespace Machine

variable {σ ο ε : Type} (M : Machine σ ο ε)

def run : ℕ → σ → Except ε (List ο × σ)
  | 0, s => .ok ([], s)
  | n + 1, s => do
    let (out, s) ← M.step s
    let (rest, s) ← run n s
    return (out ++ rest, s)

theorem run_succ_eq_ok {n : ℕ} {s t : σ} {out : List ο} :
    M.run (n + 1) s = .ok (out, t) ↔
      ∃ o s' rest, M.step s = .ok (o, s') ∧ M.run n s' = .ok (rest, t) ∧ out = o ++ rest := by
  simp only [run, bind_eq_ok, Prod.exists, pure, Except.pure, Except.ok.injEq, Prod.mk.injEq]
  constructor
  · rintro ⟨o, s', hstep, rest, t', hrun, rfl, rfl⟩
    exact ⟨o, s', rest, hstep, hrun, rfl⟩
  · rintro ⟨o, s', rest, hstep, hrun, rfl⟩
    exact ⟨o, s', hstep, rest, t, hrun, rfl, rfl⟩

/-- A run is the run of its first steps followed by the run of the rest. -/
theorem run_add {m n : ℕ} {s t u : σ} {out out' : List ο} (h : M.run m s = .ok (out, t))
    (h' : M.run n t = .ok (out', u)) : M.run (m + n) s = .ok (out ++ out', u) := by
  induction m generalizing s out with
  | zero =>
    simp only [run, Except.ok.injEq, Prod.mk.injEq] at h
    obtain ⟨rfl, rfl⟩ := h
    simpa using h'
  | succ m ih =>
    obtain ⟨o, s', rest, hstep, hrun, rfl⟩ := M.run_succ_eq_ok.mp h
    rw [Nat.succ_add, M.run_succ_eq_ok]
    exact ⟨o, s', rest ++ out', hstep, ih hrun, List.append_assoc ..⟩

/-- `R a b`: whatever `a` does, `b` does too, with the same outputs. -/
structure Simulates (R : σ → σ → Prop) : Prop where
  step : ∀ {a b a' : σ} {out : List ο}, R a b → M.step a = .ok (out, a') →
    ∃ b', M.step b = .ok (out, b') ∧ R a' b'

variable {M} {R : σ → σ → Prop}

theorem Simulates.run (h : M.Simulates R) {n : ℕ} {a b a' : σ} {out : List ο} (hab : R a b)
    (hrun : M.run n a = .ok (out, a')) : ∃ b', M.run n b = .ok (out, b') ∧ R a' b' := by
  induction n generalizing a b out with
  | zero =>
    simp only [Machine.run, Except.ok.injEq, Prod.mk.injEq] at hrun
    obtain ⟨rfl, rfl⟩ := hrun
    exact ⟨b, rfl, hab⟩
  | succ n ih =>
    obtain ⟨o, s, rest, hstep, hrest, rfl⟩ := M.run_succ_eq_ok.mp hrun
    obtain ⟨t, hstep', hst⟩ := h.step hab hstep
    obtain ⟨b', hrest', hb⟩ := ih hst hrest
    exact ⟨b', M.run_succ_eq_ok.mpr ⟨o, t, rest, hstep', hrest', rfl⟩, hb⟩

/-- An invariant of every step is one of every run. -/
theorem run_invariant {P : σ → Prop}
    (hstep : ∀ {a b : σ} {out : List ο}, P a → M.step a = .ok (out, b) → P b) {n : ℕ} {a b : σ}
    {out : List ο} (ha : P a) (hrun : M.run n a = .ok (out, b)) : P b := by
  induction n generalizing a out with
  | zero =>
    simp only [Machine.run, Except.ok.injEq, Prod.mk.injEq] at hrun
    exact hrun.2 ▸ ha
  | succ n ih =>
    obtain ⟨o, s, rest, hs, hrest, -⟩ := M.run_succ_eq_ok.mp hrun
    exact ih (hstep ha hs) hrest

/-- What follows a state: session after session, each opened on a state related to the one the
session before it ended in. -/
inductive Sessions (M : Machine σ ο ε) (R : σ → σ → Prop) : σ → List ο → σ → Prop
  | nil (b : σ) : Sessions M R b [] b
  | cons {n : ℕ} {a b b' c : σ} {out out' : List ο} (hreload : R a b)
      (hrun : M.run n a = .ok (out, b')) (hrest : Sessions M R b' out' c) :
      Sessions M R b (out ++ out') c

/-- A chain of sessions is one run of the state it follows. -/
theorem Sessions.exists_run (h : M.Simulates R) (hleft : ∀ {a b}, R a b → R a a)
    (htrans : ∀ {a b c}, R a b → R b c → R a c) {b c : σ} {out : List ο}
    (hs : Sessions M R b out c) (hb : R b b) : ∃ n c', M.run n b = .ok (out, c') ∧ R c c' := by
  induction hs with
  | nil b => exact ⟨0, b, rfl, hb⟩
  | @cons n a b b' c out out' hreload hrun _ ih =>
    obtain ⟨b'', hrun', hb''⟩ := h.run hreload hrun
    obtain ⟨m, c', hrest, hc⟩ := ih (hleft hb'')
    obtain ⟨c'', hrest', hc'⟩ := h.run hb'' hrest
    exact ⟨n + m, c'', M.run_add hrun' hrest', htrans hc hc'⟩

end Machine

end EtvStation.Lib
