import EtvStation.Lib.Outcome

/-! Two computations that may fail, compared: the same failure, or related results. -/
namespace EtvStation.Lib

variable {ε α β γ δ : Type}

inductive Alike (R : α → β → Prop) : Except ε α → Except ε β → Prop
  | error (e : ε) : Alike R (.error e) (.error e)
  | ok {a : α} {b : β} (h : R a b) : Alike R (.ok a) (.ok b)

namespace Alike

variable {R : α → β → Prop} {S : γ → δ → Prop} {x : Except ε α} {y : Except ε β}

theorem self {R : α → α → Prop} {x : Except ε α} (h : ∀ a, x = .ok a → R a a) : Alike R x x := by
  cases x with
  | error e => exact .error e
  | ok a => exact .ok (h a rfl)

theorem refl {R : α → α → Prop} (hR : ∀ a, R a a) (x : Except ε α) : Alike R x x :=
  .self fun a _ => hR a

theorem bind (h : Alike R x y) {f : α → Except ε γ} {g : β → Except ε δ}
    (hfg : ∀ a b, R a b → Alike S (f a) (g b)) : Alike S (x >>= f) (y >>= g) := by
  cases h with
  | error e => exact .error e
  | ok h => exact hfg _ _ h

theorem mapError (h : Alike R x y) (f : ε → ε) : Alike R (x.mapError f) (y.mapError f) := by
  cases h with
  | error e => exact .error (f e)
  | ok h => exact .ok h

theorem mono {R' : α → β → Prop} (h : Alike R x y) (hR : ∀ a b, R a b → R' a b) :
    Alike R' x y := by
  cases h with
  | error e => exact .error e
  | ok h => exact .ok (hR _ _ h)

/-- Where the second succeeds so does the first. -/
theorem ok_of {b : β} (h : Alike R x (.ok b : Except ε β)) : ∃ a, x = .ok a ∧ R a b := by
  cases h with
  | ok h => exact ⟨_, rfl, h⟩

end Alike

end EtvStation.Lib
