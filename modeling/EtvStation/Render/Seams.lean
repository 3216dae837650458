import EtvStation.Render.SetPlan
import Mathlib.Algebra.Order.BigOperators.Group.List
import Mathlib.Tactic.FieldSimp
import Mathlib.Tactic.Linarith
import Mathlib.Tactic.Positivity
import Mathlib.Tactic.Ring

/-! Where an accepted set plan falls: the picture runs from beginning to end, each song's sound
runs on through its layers, and all is sound but for an echo, which nothing keeps short of the end
of the song it rings into. -/
namespace EtvStation.Render

structure Track.Plays (t : Track) : Prop where
  bpm : 0 < t.nativeBpm
  ratio : 0 < t.ratio
  enter : 0 ≤ t.enterS

section Tempo

variable {t : Track}

theorem Track.Plays.sourceBar (h : t.Plays) : 0 < t.sourceBarS := by
  have := h.bpm
  unfold Track.sourceBarS
  positivity

theorem Track.Plays.exit (h : t.Plays) : 0 < t.exitRatio := by
  unfold Track.exitRatio
  split_ifs
  · exact one_pos
  · exact h.ratio

theorem Track.Plays.bar (h : t.Plays) : 0 < t.barS := div_pos h.sourceBar h.exit

theorem Track.Plays.barS_mul (h : t.Plays) : t.barS * t.exitRatio = t.sourceBarS :=
  div_mul_cancel₀ _ h.exit.ne'

/-- The ride goes from one tempo towards the other and stays between them. -/
theorem Track.Plays.rideRatios (h : t.Plays) : ∀ r ∈ t.rideRatios, 0 < r := by
  intro r hr
  unfold Track.rideRatios at hr
  split_ifs at hr
  · obtain ⟨i, hi, rfl⟩ := List.mem_map.mp hr
    have hlt : i + 1 ≤ t.rideBars.toNat := List.mem_range.mp hi
    set n := t.rideBars.toNat
    have hn : (0 : ℚ) < n := by
      have : 0 < n := by omega
      exact_mod_cast this
    have hle : ((i + 1 : ℕ) : ℚ) ≤ n := by exact_mod_cast hlt
    have hpos : (0 : ℚ) < (i + 1 : ℕ) := by positivity
    have hshare : t.ratio + (1 - t.ratio) * (i + 1 : ℕ) / n =
        (t.ratio * (n - (i + 1 : ℕ)) + (i + 1 : ℕ)) / n := by
      field_simp
      ring
    rw [hshare]
    apply div_pos _ hn
    have := mul_nonneg h.ratio.le (sub_nonneg.mpr hle)
    linarith
  · cases hr

theorem Track.Plays.rideOut (h : t.Plays) : 0 ≤ t.rideOutS := by
  unfold Track.rideOutS
  apply List.sum_nonneg
  intro x hx
  obtain ⟨r, hr, rfl⟩ := List.mem_map.mp hx
  exact (div_pos h.sourceBar (h.rideRatios r hr)).le

theorem Track.rideRatios_length : t.rideRatios.length * t.sourceBarS = t.rideSrcS := by
  unfold Track.rideRatios Track.rideSrcS
  split_ifs
  · rw [List.length_map, List.length_range]
  · simp

theorem Track.Plays.rideSrc (h : t.Plays) : 0 ≤ t.rideSrcS := by
  have := h.sourceBar
  rw [← Track.rideRatios_length]
  positivity

theorem Track.Plays.playOut_sub (h : t.Plays) (src : ℚ) :
    (t.playOutS src - t.rideOutS) * t.exitRatio = src - t.rideSrcS := by
  unfold Track.playOutS
  rw [add_sub_cancel_left, div_mul_cancel₀ _ h.exit.ne']

/-- A song that has played `n` bars past its ride has played at least them. -/
theorem Track.Plays.le_playOut (h : t.Plays) {n src : ℚ} (hsrc : t.rideSrcS + n * t.sourceBarS ≤ src) :
    t.rideOutS + n * t.barS ≤ t.playOutS src := by
  have hle : n * t.sourceBarS ≤ src - t.rideSrcS := by linarith
  have hdiv := div_le_div_of_nonneg_right hle h.exit.le
  unfold Track.playOutS Track.barS
  rw [mul_div_assoc] at hdiv
  linarith

end Tempo

/-- Segments one after another from `t` to `t'`, of positive length and inside their files, each
song running on from where it stood: `last` is the song shown before them and where it stood in
its file, `last'` the one shown at the end. -/
def Laid : Option (ℕ × ℚ) → ℚ → List VideoSegment → Option (ℕ × ℚ) → ℚ → Prop
  | last, t, [], last', t' => last = last' ∧ t = t'
  | last, t, v :: vs, last', t' =>
    v.outStart = t ∧ 0 < v.outLen ∧ -ROUNDING ≤ v.srcStart ∧
      (∀ s, last = some (v.track, s) → v.srcStart = s) ∧
      Laid (some (v.track, v.srcStart + v.outLen * v.ratio)) (t + v.outLen) vs last' t'

section Picture

theorem Laid.append {last last' last'' : Option (ℕ × ℚ)} {t t' t'' : ℚ} {vs ws : List VideoSegment}
    (h : Laid last t vs last' t') (h' : Laid last' t' ws last'' t'') :
    Laid last t (vs ++ ws) last'' t'' := by
  induction vs generalizing last t with
  | nil =>
    obtain ⟨rfl, rfl⟩ := h
    exact h'
  | cons v vs ih =>
    obtain ⟨hat, hlen, hsrc, hruns, hrest⟩ := h
    exact ⟨hat, hlen, hsrc, hruns, ih hrest⟩

variable {a b : Track} {seam : Seam} {k : ℕ}

theorem pictureFrom_laid (h : a.Plays) {srcTo : ℚ} (name : String) {ratios : List ℚ}
    (hratios : ∀ r ∈ ratios, 0 < r) {at_ src : ℚ} (hsrc : 0 ≤ src)
    (hroom : src + ratios.length * a.sourceBarS < srcTo) {last : Option (ℕ × ℚ)}
    (hlast : ∀ s, last = some (k, s) → src = s) :
    Laid last at_ (pictureFrom a k srcTo name ratios at_ src) (some (k, srcTo))
      (at_ + ((ratios.map fun r => a.sourceBarS / r).sum +
        (srcTo - (src + ratios.length * a.sourceBarS)) / a.exitRatio)) := by
  have hexit := h.exit
  have hbar := h.sourceBar
  have hround : (0 : ℚ) < ROUNDING := by norm_num [ROUNDING]
  induction ratios generalizing at_ src last with
  | nil =>
    simp only [List.length_nil, Nat.cast_zero, zero_mul, add_zero] at hroom
    refine ⟨rfl, div_pos (by linarith) hexit, by dsimp only; linarith, hlast, ?_, ?_⟩
    · dsimp only
      rw [div_mul_cancel₀ _ hexit.ne']
      congr 2
      ring
    · simp
  | cons r ratios ih =>
    have hr := hratios r List.mem_cons_self
    have hlen : ((r :: ratios).length : ℚ) = ratios.length + 1 := by
      rw [List.length_cons]
      push_cast
      ring
    rw [hlen] at hroom
    refine ⟨rfl, div_pos hbar hr, by dsimp only; linarith, hlast, ?_⟩
    have hnext : src + a.sourceBarS / r * r = src + a.sourceBarS := by
      rw [div_mul_cancel₀ _ hr.ne']
    dsimp only
    rw [hnext]
    have hrest : ∀ at', Laid (some (k, src + a.sourceBarS)) at'
        (pictureFrom a k srcTo name ratios at' (src + a.sourceBarS)) (some (k, srcTo))
        (at' + ((ratios.map fun r => a.sourceBarS / r).sum +
          (srcTo - (src + a.sourceBarS + ratios.length * a.sourceBarS)) / a.exitRatio)) := fun at' =>
      ih (fun x hx => hratios x (List.mem_cons_of_mem _ hx)) (by linarith) (by linarith)
        fun s hs => (Prod.mk.inj (Option.some.inj hs)).2
    convert hrest (at_ + a.sourceBarS / r) using 1
    rw [List.map_cons, List.sum_cons, hlen]
    ring

/-- A song's picture runs from where it enters to where it stops. -/
theorem playedPicture_laid (h : a.Plays) {srcTo : ℚ} (name : String) (t : ℚ)
    (hroom : a.enterS + a.rideSrcS < srcTo) {last : Option (ℕ × ℚ)}
    (hlast : ∀ s, last = some (k, s) → a.enterS = s) :
    Laid last t (playedPicture a k srcTo name t) (some (k, srcTo))
      (t + a.playOutS (srcTo - a.enterS)) := by
  rw [← Track.rideRatios_length] at hroom
  have hend : t + a.playOutS (srcTo - a.enterS) =
      t + ((a.rideRatios.map fun r => a.sourceBarS / r).sum +
        (srcTo - (a.enterS + a.rideRatios.length * a.sourceBarS)) / a.exitRatio) := by
    rw [Track.rideRatios_length, Track.playOutS, Track.rideOutS, sub_sub]
  rw [hend]
  exact pictureFrom_laid h name h.rideRatios h.enter hroom hlast

/-- A bar of a swap shows the incoming song for one beat of its four at least. -/
theorem sharedBeats_pos (nbars : UInt32) (hpos : 0 < nbars.toNat) (hlt : nbars.toNat < 2 ^ 31)
    (bar : UInt32) : 1 ≤ (sharedBeats nbars bar).toNat ∧ (sharedBeats nbars bar).toNat ≤ 4 := by
  have hone : (1 : UInt32).toNat = 1 := rfl
  have hnext : (nbars + 1).toNat = nbars.toNat + 1 := by
    rw [UInt32.toNat_add, hone]
    exact Nat.mod_eq_of_lt (by omega)
  have hquot : (4 * (bar + 1) / (nbars + 1)).toNat < 2 ^ 31 := by
    rw [UInt32.toNat_div, hnext]
    have := (4 * (bar + 1)).toNat_lt
    exact Nat.div_lt_of_lt_mul (by omega)
  have hsum : (4 * (bar + 1) / (nbars + 1) + 1).toNat = (4 * (bar + 1) / (nbars + 1)).toNat + 1 := by
    rw [UInt32.toNat_add, hone]
    exact Nat.mod_eq_of_lt (by omega)
  have hmin : ∀ x y : UInt32, min x y = if x ≤ y then x else y := fun _ _ => rfl
  unfold sharedBeats
  rw [hmin]
  split_ifs with h
  · rw [UInt32.le_iff_toNat_le] at h
    exact ⟨by omega, h⟩
  · decide

theorem swapBars_toNat (h : 2 ≤ seam.bars.toNat) :
    (max (seam.bars / 2) 1).toNat = seam.bars.toNat / 2 := by
  have hmax : ∀ x y : UInt32, max x y = if x ≤ y then y else x := fun _ _ => rfl
  have hdiv : (seam.bars / 2).toNat = seam.bars.toNat / 2 := UInt32.toNat_div _ _
  have hone : (1 : UInt32).toNat = 1 := rfl
  rw [hmax]
  split_ifs with hle
  · rw [UInt32.le_iff_toNat_le, hdiv, hone] at hle
    rw [hone]
    omega
  · exact hdiv

/-- The incoming song shown for the last `nb` beats of a bar of a swap. -/
theorem shownIncoming_laid (ha : a.Plays) (hb : b.Plays) (hlead : -ROUNDING ≤ bassIn a b seam)
    (bar : ℕ) (tt : ℚ) {aBeats nb : ℚ} (hnb : 0 < nb) (haBeats : 0 ≤ aBeats)
    (hbeats : aBeats + nb = 4) {last : Option (ℕ × ℚ)}
    (hlast : ∀ s, last = some (k + 1, s) →
      bassIn a b seam + (bar * a.barS + aBeats * (a.barS / 4)) * b.ratio = s) :
    Laid last (tt + aBeats * (a.barS / 4))
      [⟨pictureName k, k + 1,
        bassIn a b seam + (bar * a.barS + aBeats * (a.barS / 4)) * b.ratio,
        tt + aBeats * (a.barS / 4), nb * (a.barS / 4), b.ratio⟩]
      (some (k + 1, bassIn a b seam + (bar + 1 : ℕ) * a.barS * b.ratio)) (tt + a.barS) := by
  have hbl := ha.bar
  have hrb := hb.ratio
  have hnbEq : nb = 4 - aBeats := by linarith
  have hsource : 0 ≤ (bar * a.barS + aBeats * (a.barS / 4)) * b.ratio := by positivity
  have hstood : bassIn a b seam + (bar * a.barS + aBeats * (a.barS / 4)) * b.ratio +
      nb * (a.barS / 4) * b.ratio = bassIn a b seam + (bar + 1 : ℕ) * a.barS * b.ratio := by
    rw [hnbEq]
    push_cast
    ring
  have hended : tt + aBeats * (a.barS / 4) + nb * (a.barS / 4) = tt + a.barS := by
    rw [hnbEq]
    ring
  refine ⟨rfl, by dsimp only; positivity, by dsimp only; linarith, hlast, ?_, hended⟩
  dsimp only
  rw [hstood]

/-- One bar of a swap: the outgoing song may be shown for some beats, the incoming one is for the
others. -/
theorem barPicture_laid (ha : a.Plays) (hb : b.Plays) (hbars : 2 ≤ seam.bars.toNat)
    (hlead : -ROUNDING ≤ bassIn a b seam) (hout : 0 ≤ seam.outS) (bar : ℕ) (tt : ℚ)
    {last : Option (ℕ × ℚ)}
    (hlast : last = some (k, seam.outS + bar * a.barS * a.exitRatio) ∨
      last = some (k + 1, bassIn a b seam + bar * a.barS * b.ratio)) :
    Laid last tt (barPicture k a b seam bar tt)
      (some (k + 1, bassIn a b seam + (bar + 1 : ℕ) * a.barS * b.ratio)) (tt + a.barS) := by
  have hbl := ha.bar
  have hra := ha.exit
  have hround : (0 : ℚ) < ROUNDING := by norm_num [ROUNDING]
  have hbits := seam.bars.toNat_lt
  have hnbars := swapBars_toNat hbars
  obtain ⟨hone, hfour⟩ := sharedBeats_pos (max (seam.bars / 2) 1) (by omega) (by omega)
    (UInt32.ofNat bar)
  unfold barPicture
  dsimp only
  set nb := (sharedBeats (max (seam.bars / 2) 1) (UInt32.ofNat bar)).toNat with hnb
  have hnbPos : (0 : ℚ) < nb := by exact_mod_cast hone
  have hbeats : ((4 - nb : ℕ) : ℚ) + nb = 4 := by
    have : 4 - nb + nb = 4 := by omega
    exact_mod_cast this
  have haBeats : (0 : ℚ) ≤ (4 - nb : ℕ) := Nat.cast_nonneg _
  split_ifs with hpart
  · have hpos : (0 : ℚ) < (4 - nb : ℕ) := by
      have : 0 < 4 - nb := by omega
      exact_mod_cast this
    refine ⟨rfl, by dsimp only; positivity, ?_, ?_, ?_⟩
    · have : 0 ≤ bar * a.barS * a.exitRatio := by positivity
      dsimp only
      linarith
    · intro s hs
      rcases hlast with hlast | hlast
      · exact (Prod.mk.inj (Option.some.inj (hlast.symm.trans hs))).2
      · have := (Prod.mk.inj (Option.some.inj (hlast.symm.trans hs))).1
        dsimp only at this
        omega
    · apply shownIncoming_laid ha hb hlead bar tt hnbPos haBeats hbeats
      intro s hs
      have := (Prod.mk.inj (Option.some.inj hs)).1
      dsimp only at this
      omega
  · -- all four beats show the incoming song, which runs on from the bar before
    have hzero : ((4 - nb : ℕ) : ℚ) = 0 := by
      have : 4 - nb = 0 := by omega
      exact_mod_cast this
    have hlaid := shownIncoming_laid (k := k) ha hb hlead bar tt hnbPos haBeats hbeats
      (show ∀ s, last = some (k + 1, s) → _ from ?_)
    · simp only [hzero, zero_mul, add_zero, List.nil_append] at hlaid ⊢
      exact hlaid
    · intro s hs
      rcases hlast with hlast | hlast
      · have := (Prod.mk.inj (Option.some.inj (hlast.symm.trans hs))).1
        omega
      · rw [hzero, zero_mul, add_zero]
        exact (Prod.mk.inj (Option.some.inj (hlast.symm.trans hs))).2

theorem swapPicture_laid (ha : a.Plays) (hb : b.Plays) (hbars : 2 ≤ seam.bars.toNat)
    (hlead : -ROUNDING ≤ bassIn a b seam) (hout : 0 ≤ seam.outS) (n bar : ℕ) (tt : ℚ)
    {last : Option (ℕ × ℚ)}
    (hlast : last = some (k, seam.outS + bar * a.barS * a.exitRatio) ∨
      last = some (k + 1, bassIn a b seam + bar * a.barS * b.ratio)) (hpos : 0 < n) :
    Laid last tt (swapPicture k a b seam n bar tt)
      (some (k + 1, bassIn a b seam + (bar + n : ℕ) * a.barS * b.ratio)) (tt + n * a.barS) := by
  induction n generalizing bar tt last with
  | zero => exact absurd hpos (lt_irrefl 0)
  | succ n ih =>
    have hbar := barPicture_laid ha hb hbars hlead hout bar tt hlast
    cases n with
    | zero =>
      rw [swapPicture, swapPicture, List.append_nil]
      simpa using hbar
    | succ n =>
      rw [swapPicture]
      refine hbar.append ?_
      have hrest := ih (bar + 1) (tt + a.barS) (Or.inr rfl) (Nat.succ_pos n)
      have hcount : bar + 1 + (n + 1) = bar + (n + 1 + 1) := by omega
      have hend : tt + a.barS + ((n + 1 : ℕ) : ℚ) * a.barS = tt + (n + 1 + 1 : ℕ) * a.barS := by
        push_cast
        ring
      rw [hcount, hend] at hrest
      exact hrest

end Picture

/-- A seam that leaves its songs room: a bar of the outgoing one past its ride, or two before an
echo, and of a bass swap the lead-in in the incoming song's file and its length for the tail. -/
structure Joins (a b : Track) (seam : Seam) (stopS : ℚ) : Prop where
  body : a.enterS + a.rideSrcS + a.sourceBarS ≤ seam.outS
  bars : seam.recipe = .bassSwap → 2 ≤ seam.bars.toNat ∧ seam.bars.toNat % 2 = 0
  lead : seam.recipe = .bassSwap → halfS a seam * b.ratio ≤ b.enterS + ROUNDING
  tail : seam.recipe = .bassSwap → b.enterS ≤ stopS →
    halfS a seam ≤ b.playOutS (stopS - b.enterS) + ROUNDING
  echo : seam.recipe = .echoOut → a.enterS + a.rideSrcS + 2 * a.sourceBarS ≤ seam.outS

/-- Songs that can be played, joined by seams that leave them room, up to a closing fade. -/
def Fits (endS : ℚ) : Track → List (Seam × Track) → Prop
  | last, [] => last.Plays ∧ last.enterS + last.rideSrcS + LAST_FADE_S * last.exitRatio ≤ endS
  | a, (seam, b) :: rest => a.Plays ∧ Joins a b seam (stopOf endS rest) ∧ Fits endS b rest

section Fits

variable {endS : ℚ}

theorem Fits.plays {a : Track} {rest : List (Seam × Track)} (h : Fits endS a rest) : a.Plays := by
  cases rest with
  | nil => exact h.1
  | cons e rest => exact h.1

/-- A song plays its ride and some more before it stops. -/
theorem Fits.stops {a : Track} {rest : List (Seam × Track)} (h : Fits endS a rest) :
    a.enterS + a.rideSrcS < stopOf endS rest := by
  cases rest with
  | nil =>
    have hexit := h.plays.exit
    have hend := h.2
    have hfade : 0 < LAST_FADE_S * a.exitRatio := by
      unfold LAST_FADE_S
      positivity
    show a.enterS + a.rideSrcS < endS
    linarith
  | cons e rest =>
    have hbar := h.plays.sourceBar
    have hbody := h.2.1.body
    show a.enterS + a.rideSrcS < e.1.outS
    linarith

theorem Fits.alone {a : Track} {rest : List (Seam × Track)} (h : Fits endS a rest) :
    0 < a.playOutS (stopOf endS rest - a.enterS) := by
  have hroom : 0 < stopOf endS rest - a.enterS - a.rideSrcS := by
    have := h.stops
    linarith
  have hride := h.plays.rideOut
  have hrest := div_pos hroom h.plays.exit
  unfold Track.playOutS
  linarith

end Fits

section Layout

variable {endS : ℚ} {a b : Track} {seam : Seam} {k : ℕ}

theorem halfS_eq (h : seam.recipe = .bassSwap → 2 ≤ seam.bars.toNat ∧ seam.bars.toNat % 2 = 0)
    (hswap : seam.recipe = .bassSwap) :
    ((max (seam.bars / 2) 1).toNat : ℚ) * a.barS = halfS a seam := by
  obtain ⟨htwo, heven⟩ := h hswap
  rw [swapBars_toNat htwo, halfS]
  have hdouble : seam.bars.toNat = 2 * (seam.bars.toNat / 2) := by omega
  have hcast : (seam.bars.toNat : ℚ) = 2 * (seam.bars.toNat / 2 : ℕ) := by exact_mod_cast hdouble
  rw [hcast]
  ring

/-- The picture of a seam leaves off with the incoming song where it enters, or with the outgoing
one. -/
theorem seamPicture_laid (ha : a.Plays) (hb : b.Plays) {stopS : ℚ} (h : Joins a b seam stopS)
    (t : ℚ) {last : Option (ℕ × ℚ)} (hlast : ∀ s, last = some (k, s) → a.enterS = s) :
    ∃ last', Laid last t (seamPicture k a b seam t) last' (aloneFrom a seam t) ∧
      ∀ s, last' = some (k + 1, s) → b.enterS = s := by
  have hbar := ha.sourceBar
  have hride := ha.rideSrc
  have henter := ha.enter
  have hbody := h.body
  have hplayed := playedPicture_laid ha (pictureName k) t
    (show a.enterS + a.rideSrcS < seam.outS by linarith) hlast
  unfold seamPicture aloneFrom
  have hcut : Laid last t (playedPicture a k seam.outS (pictureName k) t ++ [])
      (some (k, seam.outS)) (phraseEnd a seam t) := by
    rw [List.append_nil]
    exact hplayed
  have hgone : ∀ s, some (k, seam.outS) = some (k + 1, s) → b.enterS = s := by
    intro s hs
    have := (Prod.mk.inj (Option.some.inj hs)).1
    omega
  cases hrecipe : seam.recipe with
  | echoOut => exact ⟨_, hcut, hgone⟩
  | dropMix => exact ⟨_, hcut, hgone⟩
  | bassSwap =>
    have hlead : -ROUNDING ≤ bassIn a b seam := by
      have := h.lead hrecipe
      unfold bassIn
      linarith
    have hcount := swapBars_toNat (h.bars hrecipe).1
    have htwo := (h.bars hrecipe).1
    have hfirst : some (k, seam.outS) = some (k, seam.outS + (0 : ℕ) * a.barS * a.exitRatio) ∨
        some (k, seam.outS) = some (k + 1, bassIn a b seam + (0 : ℕ) * a.barS * b.ratio) :=
      Or.inl (by simp)
    have hswapped := swapPicture_laid ha hb htwo hlead (show 0 ≤ seam.outS by linarith)
      (max (seam.bars / 2) 1).toNat 0 (phraseEnd a seam t) hfirst (by omega)
    rw [halfS_eq h.bars hrecipe] at hswapped
    refine ⟨_, hplayed.append hswapped, fun s hs => ?_⟩
    rw [← (Prod.mk.inj (Option.some.inj hs)).2, zero_add, halfS_eq h.bars hrecipe, bassIn,
      sub_add_cancel]

theorem layFrom_laid {rest : List (Seam × Track)} (h : Fits endS a rest) (t : ℚ)
    {last : Option (ℕ × ℚ)} (hlast : ∀ s, last = some (k, s) → a.enterS = s) :
    ∃ last', Laid last t (layFrom endS k a rest t).video last' (layFrom endS k a rest t).durationS := by
  induction rest generalizing a k t last with
  | nil => exact ⟨_, playedPicture_laid h.plays "last song picture" t h.stops hlast⟩
  | cons e rest ih =>
    obtain ⟨seam, b⟩ := e
    obtain ⟨ha, hjoins, hrest⟩ := h
    obtain ⟨mid, hseam, hmid⟩ := seamPicture_laid ha hrest.plays hjoins t hlast
    obtain ⟨last', hlaid⟩ := ih hrest (aloneFrom a seam t) hmid
    exact ⟨last', hseam.append hlaid⟩

end Layout

section Accepted

variable {endS : ℚ}

theorem checkTrack_ok {i : ℕ} {ids : List String} {by_ : Option Recipe} {t : Track}
    (h : checkTrack i ids by_ t = .ok ()) : t.Plays := by
  unfold checkTrack at h
  split_ifs at h with hlimit hentry htwice hbpm hratio henter
  exact ⟨not_le.mp hbpm, not_le.mp hratio, not_lt.mp henter⟩

theorem checkTracks_ok {seams : List Seam} {i : ℕ} {ids : List String} {tracks : List Track}
    (h : checkTracks seams i ids tracks = .ok ()) : ∀ t ∈ tracks, t.Plays := by
  induction tracks generalizing i ids with
  | nil => exact fun t ht => absurd ht List.not_mem_nil
  | cons t tracks ih =>
    obtain ⟨_, hone, hrest⟩ := Lib.bind_eq_ok.mp h
    intro t' ht'
    rcases List.mem_cons.mp ht' with rfl | ht'
    · exact checkTrack_ok hone
    · exact ih hrest t' ht'

theorem checkSwap_ok {k : ℕ} {a b : Track} {seam : Seam} {stopS : ℚ} {beforeSeam : Bool}
    (h : checkSwap k a b seam stopS beforeSeam = .ok ()) :
    (2 ≤ seam.bars.toNat ∧ seam.bars.toNat % 2 = 0) ∧
      halfS a seam * b.ratio ≤ b.enterS + ROUNDING ∧
      (b.enterS ≤ stopS → halfS a seam ≤ b.playOutS (stopS - b.enterS) + ROUNDING) := by
  unfold checkSwap at h
  dsimp only at h
  split_ifs at h with hbars hlead htail hlocked
  rw [not_or, not_not] at hbars
  refine ⟨⟨?_, ?_⟩, not_lt.mp hlead, fun hstop => not_lt.mp fun hshort => htail ⟨hstop, hshort⟩⟩
  · have hle := hbars.1
    rw [UInt32.lt_iff_toNat_lt, not_lt] at hle
    exact hle
  · have heven : (seam.bars % 2).toNat = (0 : UInt32).toNat := congrArg UInt32.toNat hbars.2
    rw [UInt32.toNat_mod] at heven
    exact heven

theorem checkSeam_ok {k : ℕ} {a b : Track} {seam : Seam} {stopS : ℚ} {beforeSeam : Bool}
    (h : checkSeam k a b seam stopS beforeSeam = .ok ()) : Joins a b seam stopS := by
  have hbody : a.enterS + a.rideSrcS + a.sourceBarS ≤ seam.outS := by
    by_contra hshort
    rw [checkSeam, if_pos (not_le.mp hshort)] at h
    cases h
  rw [checkSeam, if_neg (not_lt.mpr hbody)] at h
  obtain ⟨_, hrecipes, -⟩ := Lib.bind_eq_ok.mp h
  unfold checkRecipe at hrecipes
  cases hrecipe : seam.recipe with
  | bassSwap =>
    rw [hrecipe] at hrecipes
    obtain ⟨hbars, hlead, htail⟩ := checkSwap_ok hrecipes
    refine ⟨hbody, fun _ => hbars, fun _ => hlead, fun _ => htail, fun hecho => ?_⟩
    rw [hrecipe] at hecho
    cases hecho
  | echoOut =>
    rw [hrecipe] at hrecipes
    dsimp only at hrecipes
    split_ifs at hrecipes with hroom
    have hswap : seam.recipe ≠ .bassSwap := by
      rw [hrecipe]
      decide
    exact ⟨hbody, fun h => absurd h hswap, fun h => absurd h hswap, fun h => absurd h hswap,
      fun _ => not_lt.mp hroom⟩
  | dropMix =>
    have hswap : seam.recipe ≠ .bassSwap := by
      rw [hrecipe]
      decide
    refine ⟨hbody, fun h => absurd h hswap, fun h => absurd h hswap, fun h => absurd h hswap,
      fun hecho => ?_⟩
    rw [hrecipe] at hecho
    cases hecho

theorem checkSeams_ok {k : ℕ} {a : Track} {rest : List (Seam × Track)} (ha : a.Plays)
    (hrest : ∀ e ∈ rest, e.2.Plays) (h : checkSeams endS k a rest = .ok ()) : Fits endS a rest := by
  induction rest generalizing a k with
  | nil =>
    unfold checkSeams at h
    split_ifs at h with hend
    exact ⟨ha, not_lt.mp hend⟩
  | cons e rest ih =>
    obtain ⟨seam, b⟩ := e
    obtain ⟨_, hone, hmore⟩ := Lib.bind_eq_ok.mp h
    have hb := hrest (seam, b) List.mem_cons_self
    exact ⟨ha, checkSeam_ok hone, ih hb (fun e he => hrest e (List.mem_cons_of_mem _ he)) hmore⟩

/-- A plan that is not refused has songs that fit. -/
theorem SetPlan.validate_ok {p : SetPlan} (h : p.validate = .ok ()) :
    ∃ first rest, p.tracks = first :: rest ∧ p.seams.length = rest.length ∧
      Fits p.endS first p.joined := by
  unfold SetPlan.validate at h
  split at h
  · cases h
  · rename_i first rest htracks
    split_ifs at h with hcount
    obtain ⟨_, htrackOk, h⟩ := Lib.bind_eq_ok.mp h
    obtain ⟨_, hseamOk, -⟩ := Lib.bind_eq_ok.mp h
    have hplays := checkTracks_ok htrackOk
    rw [not_not, htracks, List.length_cons] at hcount
    refine ⟨first, rest, htracks, Nat.succ.inj hcount, checkSeams_ok ?_ ?_ hseamOk⟩
    · exact hplays first (by rw [htracks]; exact List.mem_cons_self)
    · intro e he
      exact hplays e.2 (List.mem_of_mem_tail (List.of_mem_zip he).2)

end Accepted

end EtvStation.Render
