import EtvStation.Pattern.Draws

/-! What a visit can do to the channel's history: fold in what was drawn and count clashes,
under limits that never change. -/
namespace EtvStation

/-- `b` is `a` after more draws. -/
def ChannelHistory.Grew (a b : ChannelHistory) : Prop := b.limits = a.limits ∧ a.forced ≤ b.forced

namespace ChannelHistory

theorem Grew.refl (a : ChannelHistory) : a.Grew a := ⟨rfl, le_rfl⟩

theorem Grew.trans {a b c : ChannelHistory} (h : a.Grew b) (h' : b.Grew c) : a.Grew c :=
  ⟨h'.1.trans h.1, h.2.trans h'.2⟩

theorem Grew.isUnconstrained {a b : ChannelHistory} (h : a.Grew b)
    (ha : a.isUnconstrained = true) : b.isUnconstrained = true := by
  unfold ChannelHistory.isUnconstrained at ha ⊢
  rw [h.1]
  exact ha

theorem measure_grew (cat : Catalog) (ch : ChannelHistory) (ids : List EntryId) :
    ch.Grew (ch.measure cat ids) := by
  unfold measure
  dsimp only
  split_ifs
  · exact .refl ch
  · split <;> exact ⟨rfl, le_rfl⟩

theorem remember_grew (cat : Catalog) (ch : ChannelHistory) (ids : List EntryId) :
    ch.Grew (ch.remember cat ids) := by
  unfold remember
  split_ifs
  · exact .refl ch
  · dsimp only
    split
    · exact ch.measure_grew cat ids
    · exact ⟨rfl, le_rfl⟩

end ChannelHistory

namespace PoolRuntime

theorem noteBlocked_grew (rt : PoolRuntime) (si : ℕ) (ch : ChannelHistory) :
    ch.Grew (rt.noteBlocked si ch) := by
  unfold noteBlocked
  split_ifs
  · exact ⟨rfl, le_rfl⟩
  · exact .refl ch

theorem scanFrom_grew (rt : PoolRuntime) (start : ℕ) (ch : ChannelHistory) :
    ch.Grew (rt.scanFrom start ch).2.2 := by
  unfold scanFrom
  split
  · exact .refl ch
  · dsimp only
    split_ifs
    · exact .refl ch
    · exact ⟨rfl, Nat.le_succ _⟩

theorem eligibleFrom_grew (rt : PoolRuntime) (start : ℕ) (ch : ChannelHistory) :
    ch.Grew (rt.eligibleFrom start ch).2.2 := by
  unfold eligibleFrom
  split_ifs
  · exact .refl ch
  · exact .refl ch
  · exact (rt.noteBlocked_grew start ch).trans (rt.scanFrom_grew start _)

theorem eligiblePick_grew (rt : PoolRuntime) (roll : RollKey) (nonce : UInt64)
    (ch : ChannelHistory) : ch.Grew (rt.eligiblePick roll nonce ch).2.2 := by
  unfold eligiblePick
  split
  · exact .refl ch
  · next first _ =>
    split
    · exact .refl ch
    · have hblocked := rt.noteBlocked_grew first ch
      dsimp only
      split
      · exact hblocked
      · exact hblocked.trans (rt.scanFrom_grew first _)

theorem firstSeries_grew (rt : PoolRuntime) (roll : RollKey) (nonce : UInt64)
    (ch : ChannelHistory) : ch.Grew (rt.firstSeries roll nonce ch).2.2 := by
  unfold firstSeries
  split
  · exact rt.eligiblePick_grew roll nonce ch
  · split
    · exact .refl ch
    · have hpick := rt.endHold.eligiblePick_grew roll nonce ch
      split
      · next heq => simpa only [heq] using hpick
      · next heq => simpa only [heq] using hpick

theorem shortTurn_grew (rt : PoolRuntime) (si : ℕ) (ch : ChannelHistory) :
    ch.Grew (rt.shortTurn si ch).2.2 := by
  unfold shortTurn
  split
  · split
    · exact rt.eligibleFrom_grew _ ch
    · exact .refl ch
  · dsimp only
    split_ifs
    · exact .refl ch
    · exact ⟨rfl, Nat.le_succ _⟩
  · exact .refl ch

theorem serveLoop_grew (cat : Catalog) (take passes : ℕ) (current : Option ℕ) (s : Serving) :
    s.channel.Grew (serveLoop cat take passes current s).channel := by
  induction passes generalizing current s with
  | zero => exact .refl _
  | succ passes ih =>
    cases current with
    | none => exact .refl _
    | some si =>
      simp only [serveLoop]
      split_ifs
      · exact .refl _
      · exact s.channel.remember_grew cat _
      · exact ((s.channel.remember_grew cat _).trans (shortTurn_grew _ si _)).trans (ih _ _)

theorem serveDraws_grew (cat : Catalog) (rt : PoolRuntime) (from_ : TakeFrom) (first : Option ℕ)
    (take : ℕ) (roll : RollKey) (nonce : UInt64) (ch : ChannelHistory) :
    ch.Grew (rt.serveDraws cat from_ first take roll nonce ch).2.2 :=
  serveLoop_grew cat take _ first { rt := _, channel := ch }

theorem serve_grew {cat : Catalog} {rt rt' : PoolRuntime} {want : Draw} {from_ : TakeFrom}
    {roll : RollKey} {nonce : UInt64} {done : ℕ} {ch ch' : ChannelHistory} {out : List EntryId}
    (h : rt.serve cat want from_ roll nonce done ch = .ok (out, rt', ch')) : ch.Grew ch' := by
  have hfirst := rt.firstSeries_grew roll nonce ch
  simp only [serve] at h
  split at h
  · simp only [Except.ok.injEq, Prod.mk.injEq] at h
    exact h.2.2 ▸ hfirst
  · next take _ =>
    have hdraws := serveDraws_grew cat (rt.firstSeries roll nonce ch).2.1 from_
      (rt.firstSeries roll nonce ch).1 take roll nonce (rt.firstSeries roll nonce ch).2.2
    split at h
    · split_ifs at h
      rw [Except.ok.inj h] at hdraws
      exact hfirst.trans hdraws
    · rw [Except.ok.inj h] at hdraws
      exact hfirst.trans hdraws

theorem serveSlots_grew {cat : Catalog} {from_ : TakeFrom} {roll : RollKey} {left slot : ℕ}
    {rt rt' : PoolRuntime} {ch ch' : ChannelHistory} {out out' : List EntryId}
    (h : serveSlots cat from_ roll left slot out rt ch = .ok (out', rt', ch')) : ch.Grew ch' := by
  induction left generalizing slot rt ch out with
  | zero =>
    simp only [serveSlots, Except.ok.injEq, Prod.mk.injEq] at h
    exact h.2.2 ▸ .refl ch
  | succ left ih =>
    simp only [serveSlots] at h
    split_ifs at h
    · simp only [Except.ok.injEq, Prod.mk.injEq] at h
      exact h.2.2 ▸ .refl ch
    · obtain ⟨⟨ids, rt₁, ch₁⟩, hserve, h⟩ := Lib.bind_eq_ok.mp h
      exact (serve_grew hserve).trans (ih h)

theorem visit_grew {cat : Catalog} {rt rt' : PoolRuntime} {take : Take} {from_ : TakeFrom}
    {roll : RollKey} {done : ℕ} {ch ch' : ChannelHistory} {out : List EntryId}
    (h : rt.visit cat take from_ roll done ch = .ok (out, rt', ch')) : ch.Grew ch' := by
  simp only [visit] at h
  split at h
  · simp only [Except.ok.injEq, Prod.mk.injEq] at h
    exact h.2.2 ▸ .refl ch
  · split at h
    · split at h
      · simp at h
      · obtain ⟨⟨ids, rt₁, ch₁⟩, hslots, h⟩ := Lib.bind_eq_ok.mp h
        simp only [pure, Except.pure, Except.ok.injEq, Prod.mk.injEq] at h
        exact h.2.2 ▸ serveSlots_grew hslots
    · exact serve_grew h
    · exact serve_grew h

end PoolRuntime

end EtvStation
