import Mathlib.Data.List.Basic

/-! Runs of a step function that say what happened on the way: an invariant may speak of the
state and of everything said so far. -/
namespace EtvStation.Lib

variable {σ α ε : Type} {step : σ → α → Option (σ × List ε)} {ok ok' : σ → α → Prop} {init : σ}

/-- The states reached from `init` by steps that meet `ok`, with the events said up to there. -/
inductive Traced (step : σ → α → Option (σ × List ε)) (ok : σ → α → Prop) (init : σ) :
    σ → List ε → Prop
  | init : Traced step ok init init []
  | step {s s' : σ} {es es' : List ε} {a : α} :
    Traced step ok init s es → ok s a → step s a = some (s', es') →
      Traced step ok init s' (es ++ es')

theorem Traced.mono (h : ∀ s a, ok s a → ok' s a) {s : σ} {es : List ε}
    (hs : Traced step ok init s es) : Traced step ok' init s es := by
  induction hs with
  | init => exact .init
  | step _ hok hstep ih => exact .step ih (h _ _ hok) hstep

theorem Traced.invariant {I : σ → List ε → Prop} (hinit : I init [])
    (hstep : ∀ s es a s' es', I s es → ok s a → step s a = some (s', es') → I s' (es ++ es'))
    {s : σ} {es : List ε} (h : Traced step ok init s es) : I s es := by
  induction h with
  | init => exact hinit
  | step _ hok hs ih => exact hstep _ _ _ _ _ ih hok hs

/-- What holds of every event when it is said holds of all of them. -/
theorem Traced.events {I : σ → List ε → Prop} {P : List ε → ε → Prop} (hinit : I init [])
    (hstep : ∀ s es a s' es', I s es → ok s a → step s a = some (s', es') → I s' (es ++ es'))
    (hsaid : ∀ s es a s' es', I s es → ok s a → step s a = some (s', es') →
      ∀ before e after, es' = before ++ e :: after → P (es ++ before) e)
    {s : σ} {es : List ε} (h : Traced step ok init s es) {before : List ε} {e : ε} {after : List ε}
    (hes : es = before ++ e :: after) : P before e := by
  induction h generalizing before e after with
  | init => cases before <;> cases hes
  | @step s s' es es' a hs hok hstep' ih =>
    have hI := hs.invariant hinit hstep
    rcases List.append_eq_append_iff.mp hes with ⟨mid, hbefore, hes'⟩ | ⟨mid, hfront, hafter⟩
    · rw [hbefore]
      exact hsaid s es a s' es' hI hok hstep' mid e after hes'
    · cases mid with
      | nil =>
        rw [List.append_nil] at hfront
        have hsaid' := hsaid s es a s' es' hI hok hstep' [] e after (by simpa using hafter.symm)
        simpa [hfront] using hsaid'
      | cons m mid =>
        rw [List.cons_append, List.cons.injEq] at hafter
        obtain ⟨rfl, rfl⟩ := hafter
        exact ih hfront

/-- The run along given acts, as long as each may be taken. -/
def follow (step : σ → α → Option (σ × List ε)) (ok : σ → α → Prop)
    [∀ s a, Decidable (ok s a)] : σ × List ε → List α → Option (σ × List ε)
  | r, [] => some r
  | r, a :: as =>
    if ok r.1 a then (step r.1 a).bind fun r' => follow step ok (r'.1, r.2 ++ r'.2) as else none

theorem Traced.follow [∀ s a, Decidable (ok s a)] {r r' : σ × List ε}
    (h : Traced step ok init r.1 r.2) {as : List α} (hr : Lib.follow step ok r as = some r') :
    Traced step ok init r'.1 r'.2 := by
  induction as generalizing r with
  | nil =>
    cases hr
    exact h
  | cons a as ih =>
    rw [Lib.follow] at hr
    split_ifs at hr with hok
    obtain ⟨next, hstep, hrest⟩ := Option.bind_eq_some_iff.mp hr
    exact ih (h.step hok hstep) hrest

end EtvStation.Lib
