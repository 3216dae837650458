import Mathlib.Data.Nat.Notation

/-! What a computation leaves behind when it may stop part-way: what it did up to there stays. -/
namespace EtvStation.Lib

variable {σ ε α β : Type}

/-- From `s`, what is returned satisfies `Q`, and the state left by a computation that stops
satisfies `E`. -/
def Ensures (x : EStateM ε σ α) (s : σ) (Q : α → σ → Prop) (E : σ → Prop) : Prop :=
  match x.run s with
  | .ok a s' => Q a s'
  | .error _ s' => E s'

instance Ensures.decidable (x : EStateM ε σ α) (s : σ) (Q : α → σ → Prop) (E : σ → Prop)
    [∀ a s, Decidable (Q a s)] [∀ s, Decidable (E s)] : Decidable (Ensures x s Q E) :=
  match h : x.run s with
  | .ok a s' => decidable_of_iff (Q a s') (by rw [Ensures, h])
  | .error _ s' => decidable_of_iff (E s') (by rw [Ensures, h])

namespace Ensures

variable {x : EStateM ε σ α} {f : α → EStateM ε σ β} {s : σ} {Q Q' : α → σ → Prop}
  {R : β → σ → Prop} {E E' : σ → Prop}

theorem mono (h : Ensures x s Q E) (hq : ∀ a s, Q a s → Q' a s) (he : ∀ s, E s → E' s) :
    Ensures x s Q' E' := by
  unfold Ensures at h ⊢
  cases hx : x.run s with
  | ok a s' =>
    rw [hx] at h
    exact hq a s' h
  | error e s' =>
    rw [hx] at h
    exact he s' h

theorem and (h : Ensures x s Q E) (h' : Ensures x s Q' E') :
    Ensures x s (fun a s => Q a s ∧ Q' a s) fun s => E s ∧ E' s := by
  unfold Ensures at h h' ⊢
  cases hx : x.run s with
  | ok a s' =>
    rw [hx] at h h'
    exact ⟨h, h'⟩
  | error e s' =>
    rw [hx] at h h'
    exact ⟨h, h'⟩

theorem bind (hx : Ensures x s Q E) (hf : ∀ a s, Q a s → Ensures (f a) s R E) :
    Ensures (x >>= f) s R E := by
  unfold Ensures at hx ⊢
  rw [EStateM.run_bind]
  cases hrun : x.run s with
  | ok a s' =>
    rw [hrun] at hx
    exact hf a s' hx
  | error e s' =>
    rw [hrun] at hx
    exact hx

theorem pure {a : α} (h : Q a s) : Ensures (Pure.pure a : EStateM ε σ α) s Q E := h

theorem get {Q : σ → σ → Prop} (h : Q s s) :
    Ensures (MonadState.get : EStateM ε σ σ) s Q E := h

theorem modify {g : σ → σ} {Q : PUnit → σ → Prop} (h : Q ⟨⟩ (g s)) :
    Ensures (modifyThe σ g : EStateM ε σ PUnit) s Q E := h

/-- What every step keeps, a list of steps keeps. -/
theorem forM {I : σ → Prop} {g : α → EStateM ε σ PUnit} (l : List α)
    (h : ∀ a ∈ l, ∀ s, I s → Ensures (g a) s (fun _ => I) E) (hs : I s) :
    Ensures (l.forM g) s (fun _ => I) E := by
  induction l generalizing s with
  | nil => exact hs
  | cons a l ih =>
    show Ensures (g a >>= fun _ => l.forM g) s _ _
    refine (h a List.mem_cons_self s hs).bind fun _ s hs => ?_
    exact ih (fun b hb => h b (List.mem_cons_of_mem a hb)) hs

end Ensures

end EtvStation.Lib
