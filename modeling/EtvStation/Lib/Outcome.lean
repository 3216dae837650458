import Mathlib.Data.Nat.Notation

/-! Computations that may fail, taken apart at their binds. -/
namespace EtvStation.Lib

variable {ε α β : Type}

theorem ok_bind (a : α) (f : α → Except ε β) : (Except.ok a >>= f) = f a := rfl

theorem bind_eq_ok {x : Except ε α} {f : α → Except ε β} {b : β} :
    x >>= f = .ok b ↔ ∃ a, x = .ok a ∧ f a = .ok b := by
  cases x with
  | error e => exact ⟨nofun, fun ⟨_, h, _⟩ => nomatch h⟩
  | ok a => exact ⟨fun h => ⟨a, rfl, h⟩, fun ⟨_, h, h'⟩ => Except.ok.inj h ▸ h'⟩

theorem map_eq_ok {x : Except ε α} {f : α → β} {b : β} :
    f <$> x = .ok b ↔ ∃ a, x = .ok a ∧ f a = b := by
  cases x with
  | error e => exact ⟨nofun, fun ⟨_, h, _⟩ => nomatch h⟩
  | ok a =>
    exact ⟨fun h => ⟨a, rfl, Except.ok.inj h⟩,
      fun ⟨_, h, h'⟩ => Except.ok.inj h ▸ congrArg Except.ok h'⟩

/-- A list is mapped item by item, and succeeds only when every item does. -/
theorem mapM_eq_ok {f : α → Except ε β} {as : List α} {bs : List β} (h : as.mapM f = .ok bs) :
    bs.length = as.length ∧
      ∀ {i : ℕ} {a : α} {b : β}, as[i]? = some a → bs[i]? = some b → f a = .ok b := by
  induction as generalizing bs with
  | nil =>
    obtain rfl : bs = [] := (Except.ok.inj h).symm
    exact ⟨rfl, fun hi => by simp at hi⟩
  | cons a as ih =>
    rw [List.mapM_cons] at h
    obtain ⟨b, hb, h⟩ := bind_eq_ok.mp h
    obtain ⟨bs', hbs, h⟩ := bind_eq_ok.mp h
    obtain rfl : bs = b :: bs' := (Except.ok.inj h).symm
    obtain ⟨hlen, hall⟩ := ih hbs
    refine ⟨by simp [hlen], fun {i a' b'} ha hb' => ?_⟩
    cases i with
    | zero =>
      obtain rfl := Option.some.inj ha
      obtain rfl := Option.some.inj hb'
      exact hb
    | succ i => exact hall ha hb'

end EtvStation.Lib
