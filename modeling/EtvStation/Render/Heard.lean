import EtvStation.Render.Seams

/-! What is heard of an accepted set plan: each song's layers run on from one another, and a song
is silent once the next seam's phrase has ended unless its echo is longer than the song after it
plays alone. -/
namespace EtvStation.Render

/-- Segments one after another from `s` to `e`. -/
def Tiles : ℚ → List VideoSegment → ℚ → Prop
  | s, [], e => s = e
  | s, v :: vs, e => v.outStart = s ∧ 0 < v.outLen ∧ Tiles (s + v.outLen) vs e

/-- A segment of the song before it starts where that left off in the file. -/
def VideoSegment.RunsOn (v w : VideoSegment) : Prop :=
  v.track = w.track → w.srcStart = v.srcStart + v.outLen * v.ratio

namespace AudioLayer

def outEnd (l : AudioLayer) : ℚ := l.outStart + l.outLen

/-- A layer takes over where another leaves off, in the set and in the file. -/
def Continues (l m : AudioLayer) : Prop :=
  m.outStart = l.outEnd ∧ m.srcStart = l.srcStart + l.srcLen

/-- Where a layer is heard and what it reads make sense. -/
def Proper (l : AudioLayer) : Prop := 0 < l.outLen ∧ -ROUNDING ≤ l.srcStart

end AudioLayer

section Video

variable {last last' : Option (ℕ × ℚ)} {t t' : ℚ} {vs : List VideoSegment}

theorem Laid.tiles (h : Laid last t vs last' t') : Tiles t vs t' := by
  induction vs generalizing last t with
  | nil => exact h.2
  | cons v vs ih =>
    obtain ⟨hat, hlen, hsrc, hruns, hrest⟩ := h
    exact ⟨hat, hlen, ih hrest⟩

theorem Laid.srcStart (h : Laid last t vs last' t') : ∀ v ∈ vs, -ROUNDING ≤ v.srcStart := by
  induction vs generalizing last t with
  | nil =>
    intro v hv
    cases hv
  | cons v vs ih =>
    obtain ⟨hat, hlen, hsrc, hruns, hrest⟩ := h
    intro w hw
    rcases List.mem_cons.mp hw with rfl | hw
    · exact hsrc
    · exact ih hrest w hw

theorem Laid.runsOn (h : Laid last t vs last' t') : vs.IsChain VideoSegment.RunsOn := by
  induction vs generalizing last t with
  | nil => exact List.IsChain.nil
  | cons v vs ih =>
    obtain ⟨hat, hlen, hsrc, hruns, hrest⟩ := h
    apply List.isChain_cons.mpr
    refine ⟨?_, ih hrest⟩
    intro w hw htrack
    cases vs with
    | nil => cases hw
    | cons x vs =>
      cases hw
      apply hrest.2.2.2.1
      rw [htrack]

theorem Tiles.le_outStart {s e : ℚ} (h : Tiles s vs e) : ∀ v ∈ vs, s ≤ v.outStart := by
  induction vs generalizing s with
  | nil =>
    intro v hv
    cases hv
  | cons v vs ih =>
    obtain ⟨hat, hlen, hrest⟩ := h
    intro w hw
    rcases List.mem_cons.mp hw with rfl | hw
    · exact hat.ge
    · have := ih hrest w hw
      linarith

theorem Tiles.inOrder {s e : ℚ} (h : Tiles s vs e) :
    vs.Pairwise fun v w => v.outStart ≤ w.outStart := by
  induction vs generalizing s with
  | nil => exact List.Pairwise.nil
  | cons v vs ih =>
    obtain ⟨hat, hlen, hrest⟩ := h
    apply List.Pairwise.cons _ (ih hrest)
    intro w hw
    have := hrest.le_outStart w hw
    linarith

end Video

section Layers

variable {a b : Track} {seam : Seam} {k : ℕ} {stopS : ℚ}

/-- A layer that plays a song from where it enters, its ride first. -/
theorem Track.Plays.srcLen (h : a.Plays) {l : AudioLayer} (hride : l.ride = rideOf a)
    (hratio : l.ratio = a.ratio) {src extra : ℚ} (hlen : l.outLen = a.playOutS src + extra) :
    l.srcLen = src + extra * a.exitRatio := by
  have hplayed := h.playOut_sub src
  have hread : l.srcLen = a.rideSrcS + (l.outLen - a.rideOutS) * a.exitRatio := by
    unfold AudioLayer.srcLen
    rw [hride, rideOf]
    by_cases hrides : a.rides = true
    · have hexit : a.exitRatio = 1 := by rw [Track.exitRatio, if_pos hrides]
      have hout : Ride.outS ⟨a.sourceBarS, a.rideRatios⟩ = a.rideOutS := rfl
      have hsrc : Ride.srcS ⟨a.sourceBarS, a.rideRatios⟩ = a.rideSrcS := by
        rw [← Track.rideRatios_length, Ride.srcS, mul_comm]
      rw [if_pos hrides, hexit, mul_one]
      dsimp only
      rw [hout, hsrc]
    · have hexit : a.exitRatio = a.ratio := by rw [Track.exitRatio, if_neg hrides]
      have hsrc : a.rideSrcS = 0 := by rw [Track.rideSrcS, if_neg hrides]
      have hout : a.rideOutS = 0 := by
        rw [Track.rideOutS, Track.rideRatios, if_neg hrides, List.map_nil, List.sum_nil]
      rw [if_neg hrides, hexit, hsrc, hout, hratio, sub_zero, zero_add]
  rw [hread, hlen]
  have : (a.playOutS src + extra - a.rideOutS) * a.exitRatio =
      (a.playOutS src - a.rideOutS) * a.exitRatio + extra * a.exitRatio := by ring
  rw [this, hplayed]
  ring

theorem halfS_pos (ha : a.Plays) (hbars : 2 ≤ seam.bars.toNat) : 0 < halfS a seam := by
  have hbar := ha.bar
  have hpos : (0 : ℚ) < seam.bars.toNat := by
    have : 0 < seam.bars.toNat := by omega
    exact_mod_cast this
  unfold halfS
  positivity

/-- Before its phrase ends the song has played its ride and a bar. -/
theorem Joins.body_le (ha : a.Plays) (h : Joins a b seam stopS) :
    a.rideOutS + a.barS ≤ a.playOutS (seam.outS - a.enterS) := by
  have hbody : a.rideSrcS + 1 * a.sourceBarS ≤ seam.outS - a.enterS := by linarith [h.body]
  have := ha.le_playOut hbody
  linarith

theorem Joins.echo_le (ha : a.Plays) (h : Joins a b seam stopS) (hecho : seam.recipe = .echoOut) :
    a.rideOutS + 2 * a.barS ≤ a.playOutS (seam.outS - a.enterS) :=
  ha.le_playOut (by linarith [h.echo hecho])

theorem Joins.le_aloneFrom (ha : a.Plays) (h : Joins a b seam stopS) (t : ℚ) :
    phraseEnd a seam t ≤ aloneFrom a seam t := by
  unfold aloneFrom
  cases hrecipe : seam.recipe with
  | bassSwap =>
    have := halfS_pos ha (h.bars hrecipe).1
    dsimp only
    linarith
  | echoOut => exact le_refl _
  | dropMix => exact le_refl _

theorem seamAudio_proper (ha : a.Plays) (h : Joins a b seam stopS) (t : ℚ) :
    ∀ l ∈ seamAudio k a b seam t, l.Proper := by
  have hbar := ha.bar
  have hride := ha.rideOut
  have hrideSrc := ha.rideSrc
  have henter := ha.enter
  have hsourceBar := ha.sourceBar
  have hbody := h.body_le ha
  have houtS := h.body
  have hround : (0 : ℚ) < ROUNDING := by norm_num [ROUNDING]
  intro l hl
  unfold seamAudio at hl
  cases hrecipe : seam.recipe with
  | bassSwap =>
    have hhalf := halfS_pos ha (h.bars hrecipe).1
    have hlead := h.lead hrecipe
    have htail := mul_pos hhalf ha.exit
    simp only [hrecipe, List.mem_cons, List.not_mem_nil, or_false] at hl
    rcases hl with rfl | rfl | rfl
    · exact ⟨by dsimp only; linarith, by dsimp only; linarith⟩
    · exact ⟨hhalf, by dsimp only; linarith⟩
    · exact ⟨hhalf, by dsimp only [bassIn]; linarith⟩
  | echoOut =>
    have hecho := h.echo_le ha hrecipe
    have hroom := h.echo hrecipe
    have hmul := ha.barS_mul
    simp only [hrecipe, List.mem_cons, List.not_mem_nil, or_false] at hl
    rcases hl with rfl | rfl
    · exact ⟨by dsimp only; linarith, by dsimp only; linarith⟩
    · exact ⟨by dsimp only; linarith, by dsimp only; linarith⟩
  | dropMix =>
    simp only [hrecipe, List.mem_singleton] at hl
    rw [hl]
    exact ⟨by dsimp only; linarith, by dsimp only; linarith⟩

def layersOf (i : ℕ) (ls : List AudioLayer) : List AudioLayer := ls.filter (·.track = i)

theorem layersOf_append (i : ℕ) (ls ms : List AudioLayer) :
    layersOf i (ls ++ ms) = layersOf i ls ++ layersOf i ms := List.filter_append _ _

theorem layersOf_eq_nil {i : ℕ} {ls : List AudioLayer} (h : ∀ l ∈ ls, l.track ≠ i) :
    layersOf i ls = [] := by
  rw [layersOf, List.filter_eq_nil_iff]
  intro l hl
  simpa using h l hl

/-- A layer of a seam is of the outgoing song, or it leads the incoming one in and is over when
that plays alone. -/
theorem seamAudio_track {t : ℚ} {l : AudioLayer} (h : l ∈ seamAudio k a b seam t) :
    l.track = k ∨ l.track = k + 1 ∧ l.outEnd = aloneFrom a seam t := by
  unfold seamAudio at h
  unfold aloneFrom phraseEnd
  cases hrecipe : seam.recipe with
  | bassSwap =>
    simp only [hrecipe, List.mem_cons, List.not_mem_nil, or_false] at h
    rcases h with rfl | rfl | rfl
    · exact Or.inl rfl
    · exact Or.inl rfl
    · exact Or.inr ⟨rfl, rfl⟩
  | echoOut =>
    simp only [hrecipe, List.mem_cons, List.not_mem_nil, or_false] at h
    rcases h with rfl | rfl
    · exact Or.inl rfl
    · exact Or.inl rfl
  | dropMix =>
    simp only [hrecipe, List.mem_singleton] at h
    rw [h]
    exact Or.inl rfl

/-- The outgoing song's layers run on from one another, from where and when it enters. -/
theorem seamAudio_outgoing (ha : a.Plays) (k : ℕ) (b : Track) (seam : Seam) (t : ℚ) :
    (layersOf k (seamAudio k a b seam t)).IsChain AudioLayer.Continues ∧
      ∀ l ∈ (layersOf k (seamAudio k a b seam t)).head?, l.outStart = t ∧ l.srcStart = a.enterS := by
  have hmul := ha.barS_mul
  have hnext : k + 1 ≠ k := Nat.succ_ne_self k
  unfold layersOf seamAudio
  cases hrecipe : seam.recipe with
  | bassSwap =>
    simp only [List.filter_cons, List.filter_nil, decide_true, if_true, hnext, decide_false,
      Bool.false_eq_true, if_false]
    refine ⟨List.isChain_pair.mpr ⟨?_, ?_⟩, fun l hl => ?_⟩
    · dsimp only [AudioLayer.outEnd]
      ring
    · rw [ha.srcLen rfl rfl rfl]
      dsimp only
      ring
    · cases hl
      exact ⟨rfl, rfl⟩
  | echoOut =>
    simp only [List.filter_cons, List.filter_nil, decide_true, if_true]
    refine ⟨List.isChain_pair.mpr ⟨?_, ?_⟩, fun l hl => ?_⟩
    · dsimp only [AudioLayer.outEnd]
      ring
    · rw [ha.srcLen rfl rfl (sub_eq_add_neg _ _)]
      dsimp only
      ring
    · cases hl
      exact ⟨rfl, rfl⟩
  | dropMix =>
    simp only [List.filter_cons, List.filter_nil, decide_true, if_true]
    refine ⟨List.isChain_singleton _, fun l hl => ?_⟩
    cases hl
    exact ⟨rfl, rfl⟩

/-- What of the incoming song is heard in a seam leads up to where and when it plays alone. -/
theorem seamAudio_incoming (t : ℚ) {rest : List AudioLayer}
    (hrest : rest.IsChain AudioLayer.Continues)
    (hhead : ∀ l ∈ rest.head?, l.outStart = aloneFrom a seam t ∧ l.srcStart = b.enterS) :
    (layersOf (k + 1) (seamAudio k a b seam t) ++ rest).IsChain AudioLayer.Continues := by
  have hother : k ≠ k + 1 := (Nat.succ_ne_self k).symm
  unfold aloneFrom at hhead
  unfold layersOf seamAudio
  cases hrecipe : seam.recipe with
  | bassSwap =>
    simp only [hrecipe] at hhead
    simp only [List.filter_cons, List.filter_nil, decide_true, if_true, hother, decide_false,
      Bool.false_eq_true, if_false, List.singleton_append]
    refine List.isChain_cons.mpr ⟨fun l hl => ?_, hrest⟩
    obtain ⟨hat, hsrc⟩ := hhead l hl
    refine ⟨hat, ?_⟩
    rw [hsrc]
    dsimp only [AudioLayer.srcLen, bassIn]
    ring
  | echoOut =>
    simp only [List.filter_cons, List.filter_nil, hother, decide_false, Bool.false_eq_true,
      if_false, List.nil_append]
    exact hrest
  | dropMix =>
    simp only [List.filter_cons, List.filter_nil, hother, decide_false, Bool.false_eq_true,
      if_false, List.nil_append]
    exact hrest

/-- The songs are silent by the end of the next seam's phrase just when an echo is over by it. -/
theorem seamAudio_silent (ha : a.Plays) (h : Joins a b seam stopS) (hstop : b.enterS ≤ stopS)
    (halone : 0 < b.playOutS (stopS - b.enterS)) (t : ℚ) :
    (∀ l ∈ seamAudio k a b seam t, l.track = k →
        l.outEnd ≤ aloneFrom a seam t + b.playOutS (stopS - b.enterS) + ROUNDING) ↔
      (seam.recipe = .echoOut → 2 * a.barS ≤ b.playOutS (stopS - b.enterS) + ROUNDING) := by
  have hbar := ha.bar
  have hround : (0 : ℚ) < ROUNDING := by norm_num [ROUNDING]
  unfold seamAudio aloneFrom phraseEnd
  cases hrecipe : seam.recipe with
  | bassSwap =>
    have htail := h.tail hrecipe hstop
    have hswap : Recipe.bassSwap ≠ .echoOut := by decide
    refine ⟨fun _ hecho => absurd hecho hswap, fun _ l hl htrack => ?_⟩
    simp only [List.mem_cons, List.not_mem_nil, or_false] at hl
    rcases hl with rfl | rfl | rfl
    · dsimp only [AudioLayer.outEnd]
      linarith
    · dsimp only [AudioLayer.outEnd]
      linarith
    · exact absurd htrack (Nat.succ_ne_self k)
  | echoOut =>
    simp only [List.mem_cons, List.not_mem_nil, or_false, forall_eq_or_imp, forall_eq,
      forall_true_left, AudioLayer.outEnd]
    constructor
    · intro hsilent
      linarith [hsilent.2]
    · intro hecho
      constructor
      · linarith
      · linarith
  | dropMix =>
    have hdrop : Recipe.dropMix ≠ .echoOut := by decide
    refine ⟨fun _ hecho => absurd hecho hdrop, fun _ l hl _ => ?_⟩
    rw [List.mem_singleton] at hl
    rw [hl]
    dsimp only [AudioLayer.outEnd]
    linarith

end Layers

section Songs

variable {endS : ℚ} {a : Track} {k : ℕ} {rest : List (Seam × Track)}

theorem layFrom_proper (h : Fits endS a rest) (t : ℚ) :
    ∀ l ∈ (layFrom endS k a rest t).audio, l.Proper := by
  induction rest generalizing a k t with
  | nil =>
    have hround : (0 : ℚ) < ROUNDING := by norm_num [ROUNDING]
    have henter := h.plays.enter
    intro l hl
    rw [List.mem_singleton.mp hl]
    exact ⟨h.alone, by dsimp only; linarith⟩
  | cons e rest ih =>
    obtain ⟨seam, b⟩ := e
    obtain ⟨ha, hjoins, hrest⟩ := h
    intro l hl
    rcases List.mem_append.mp hl with hl | hl
    · exact seamAudio_proper ha hjoins t l hl
    · exact ih hrest (aloneFrom a seam t) l hl

theorem layFrom_track {t : ℚ} {l : AudioLayer} (h : l ∈ (layFrom endS k a rest t).audio) :
    k ≤ l.track := by
  induction rest generalizing a k t with
  | nil => exact (congrArg AudioLayer.track (List.mem_singleton.mp h)).ge
  | cons e rest ih =>
    obtain ⟨seam, b⟩ := e
    rcases List.mem_append.mp h with h | h
    · rcases seamAudio_track h with h | ⟨h, -⟩
      · exact h.ge
      · omega
    · have := ih h
      omega

/-- Each song's layers run on from one another, those of the song that is up next from where and
when it enters. -/
theorem layFrom_continues (h : Fits endS a rest) (t : ℚ) :
    (∀ i, (layersOf i (layFrom endS k a rest t).audio).IsChain AudioLayer.Continues) ∧
      ∀ l ∈ (layersOf k (layFrom endS k a rest t).audio).head?,
        l.outStart = t ∧ l.srcStart = a.enterS := by
  induction rest generalizing a k t with
  | nil =>
    constructor
    · intro i
      have hone : ∀ l : AudioLayer, (layersOf i [l]).IsChain AudioLayer.Continues := by
        intro l
        unfold layersOf
        rw [List.filter_singleton]
        cases decide (l.track = i) with
        | true => exact List.isChain_singleton _
        | false => exact List.IsChain.nil
      exact hone _
    · intro l hl
      unfold layersOf layFrom lastSong at hl
      simp only [List.filter_cons, List.filter_nil, decide_true, if_true] at hl
      cases hl
      exact ⟨rfl, rfl⟩
  | cons e rest ih =>
    obtain ⟨seam, b⟩ := e
    obtain ⟨ha, hjoins, hrest⟩ := h
    obtain ⟨hchains, hhead⟩ := ih (k := k + 1) hrest (aloneFrom a seam t)
    obtain ⟨hout, houtHead⟩ := seamAudio_outgoing ha k b seam t
    have hgone : layersOf k (layFrom endS (k + 1) b rest (aloneFrom a seam t)).audio = [] := by
      apply layersOf_eq_nil
      intro l hl htrack
      have := layFrom_track hl
      omega
    have hsplit : ∀ i, layersOf i (layFrom endS k a ((seam, b) :: rest) t).audio =
        layersOf i (seamAudio k a b seam t) ++
          layersOf i (layFrom endS (k + 1) b rest (aloneFrom a seam t)).audio := fun i =>
      layersOf_append i _ _
    constructor
    · intro i
      rw [hsplit]
      by_cases hk : i = k
      · rw [hk, hgone, List.append_nil]
        exact hout
      · by_cases hnext : i = k + 1
        · rw [hnext]
          exact seamAudio_incoming t (hchains (k + 1)) hhead
        · have hnone : layersOf i (seamAudio k a b seam t) = [] := by
            apply layersOf_eq_nil
            intro l hl htrack
            rcases seamAudio_track hl with hl | ⟨hl, -⟩
            · omega
            · omega
          rw [hnone, List.nil_append]
          exact hchains i
    · intro l hl
      rw [hsplit, hgone, List.append_nil] at hl
      exact houtHead l hl

/-- The picture of a set, before which nothing is shown. -/
theorem layFrom_laid_first (h : Fits endS a rest) :
    ∃ last', Laid none 0 (layFrom endS 0 a rest 0).video last'
      (layFrom endS 0 a rest 0).durationS := by
  apply layFrom_laid h
  intro s hs
  cases hs

/-- A set lasts until its next song stops, at least. -/
theorem layFrom_durationS (h : Fits endS a rest) (t : ℚ) :
    t + a.playOutS (stopOf endS rest - a.enterS) ≤ (layFrom endS k a rest t).durationS := by
  induction rest generalizing a k t with
  | nil => exact le_refl _
  | cons e rest ih =>
    obtain ⟨seam, b⟩ := e
    obtain ⟨ha, hjoins, hrest⟩ := h
    have hlater := hjoins.le_aloneFrom ha t
    have halone := hrest.alone
    have hend := ih (k := k + 1) hrest (aloneFrom a seam t)
    show phraseEnd a seam t ≤ (layFrom endS (k + 1) b rest (aloneFrom a seam t)).durationS
    linarith

/-- Where a seam of a layout falls, the `j`-th, out of the `k`-th song of the set: that enters at
`t`, and of it nothing is heard later than in the seam. -/
structure Layout.Falls (layout : Layout) (j k : ℕ) (a b : Track) (seam : Seam) (stopS t : ℚ) :
    Prop where
  alone : layout.seamAtS[j]? = some (aloneFrom a seam t)
  ends : aloneFrom a seam t + b.playOutS (stopS - b.enterS) ≤ layout.durationS
  laid : ∀ l ∈ seamAudio k a b seam t, l ∈ layout.audio
  heard : ∀ l ∈ layout.audio, l.track = k → l ∈ seamAudio k a b seam t ∨ l.outEnd ≤ t

theorem layFrom_falls_zero {seam : Seam} {b : Track} (h : Fits endS a ((seam, b) :: rest)) (t : ℚ) :
    (layFrom endS k a ((seam, b) :: rest) t).Falls 0 k a b seam (stopOf endS rest) t where
  alone := rfl
  ends := layFrom_durationS (k := k + 1) h.2.2 (aloneFrom a seam t)
  laid _ hl := List.mem_append_left _ hl
  heard l hl htrack := by
    rcases List.mem_append.mp hl with hl | hl
    · exact Or.inl hl
    · have := layFrom_track hl
      omega

theorem Layout.Falls.cons {seam seam' : Seam} {b a' b' : Track} {j : ℕ} {stopS t t' : ℚ}
    (hle : aloneFrom a seam t ≤ t')
    (h : (layFrom endS (k + 1) b rest (aloneFrom a seam t)).Falls j (k + (j + 1)) a' b' seam' stopS
      t') :
    (layFrom endS k a ((seam, b) :: rest) t).Falls (j + 1) (k + (j + 1)) a' b' seam' stopS t' where
  alone := h.alone
  ends := h.ends
  laid l hl := List.mem_append_right _ (h.laid l hl)
  heard l hl htrack := by
    rcases List.mem_append.mp hl with hl | hl
    · rcases seamAudio_track hl with hk | ⟨-, hend⟩
      · omega
      · right
        rw [hend]
        exact hle
    · exact h.heard l hl htrack

/-- The `j`-th seam from here leads out of the song `a'`, which enters at `t'`. -/
theorem layFrom_seam (h : Fits endS a rest) (t : ℚ) {j : ℕ} {seam : Seam} {b : Track}
    (hj : rest[j]? = some (seam, b)) :
    ∃ a' t', (a :: rest.map Prod.snd)[j]? = some a' ∧ a'.Plays ∧
      Joins a' b seam (stopOf endS (rest.drop (j + 1))) ∧ Fits endS b (rest.drop (j + 1)) ∧
      t ≤ t' ∧
      (layFrom endS k a rest t).Falls j (k + j) a' b seam (stopOf endS (rest.drop (j + 1))) t' ∧
      (rest.length = j + 1 → (layFrom endS k a rest t).durationS =
        aloneFrom a' seam t' + b.playOutS (endS - b.enterS)) := by
  induction rest generalizing a k t j with
  | nil => cases hj
  | cons e rest ih =>
    obtain ⟨seam₀, b₀⟩ := e
    have hrest := h.2.2
    cases j with
    | zero =>
      cases Option.some.inj hj
      refine ⟨a, t, rfl, h.plays, h.2.1, hrest, le_refl t, layFrom_falls_zero h t, ?_⟩
      intro hlast
      cases rest with
      | nil => rfl
      | cons e rest => cases hlast
    | succ j =>
      have hcount : k + 1 + j = k + (j + 1) := by omega
      obtain ⟨a', t', hsong, ha', hjoins', hfits, hle, hfalls, hlast⟩ :=
        ih (k := k + 1) hrest (aloneFrom a seam₀ t) (j := j) hj
      rw [hcount] at hfalls
      have hbody := h.2.1.body_le h.plays
      have hlater := h.2.1.le_aloneFrom h.plays t
      have hride := h.plays.rideOut
      have hbar := h.plays.bar
      unfold phraseEnd at hlater
      refine ⟨a', t', hsong, ha', hjoins', hfits, by linarith, hfalls.cons hle, ?_⟩
      intro hlen
      exact hlast (Nat.succ.inj hlen)

end Songs

namespace SetPlan

variable (p : SetPlan)

/-- Where in its file the `i`-th song stops. -/
def stopS (i : ℕ) : ℚ := (p.seams[i]?.map (·.outS)).getD p.endS

/-- The song that the `k`-th seam leads out of is silent once the next seam's phrase has ended,
and once the set has. -/
def SilentAfter (k : ℕ) : Prop :=
  ∃ at_, p.layout.seamAtS[k]? = some at_ ∧ ∀ l ∈ p.layout.audio, l.track = k →
    (∀ b next, p.tracks[k + 1]? = some b → p.seams[k + 1]? = some next →
      l.outEnd ≤ phraseEnd b next at_ + ROUNDING) ∧
    l.outEnd ≤ p.durationS + ROUNDING

/-- The picture covers the set without gap or overlap and every song's picture and sound run on;
a song that has been left is silent in time. -/
structure Sound : Prop where
  tiles : Tiles 0 p.layout.video p.durationS
  source : ∀ v ∈ p.layout.video, -ROUNDING ≤ v.srcStart
  runsOn : p.layout.video.IsChain VideoSegment.RunsOn
  layers : ∀ l ∈ p.layout.audio, l.Proper
  continues : ∀ i, (layersOf i p.layout.audio).IsChain AudioLayer.Continues
  silent : ∀ k < p.seams.length, p.SilentAfter k

/-- Each echo is over by the time the song it rings into stops. -/
def EchoesFit : Prop :=
  ∀ k a b seam, p.tracks[k]? = some a → p.tracks[k + 1]? = some b → p.seams[k]? = some seam →
    seam.recipe = .echoOut → 2 * a.barS ≤ b.playOutS (p.stopS (k + 1) - b.enterS) + ROUNDING

end SetPlan

section Plan

variable {p : SetPlan} {first : Track} {rest : List Track}

/-- The picture comes in order already. -/
theorem SetPlan.layout_eq (htracks : p.tracks = first :: rest) (h : Fits p.endS first p.joined) :
    p.layout = layFrom p.endS 0 first p.joined 0 := by
  obtain ⟨last', hlaid⟩ := layFrom_laid_first h
  have horder := hlaid.tiles.inOrder.insertionSort_eq
  unfold SetPlan.layout
  rw [htracks]
  dsimp only
  rw [horder]

theorem SetPlan.joined_getElem? (htracks : p.tracks = first :: rest) {k : ℕ} {seam : Seam}
    {b : Track} (hb : p.tracks[k + 1]? = some b) (hseam : p.seams[k]? = some seam) :
    p.joined[k]? = some (seam, b) := by
  rw [htracks, List.getElem?_cons_succ] at hb
  unfold SetPlan.joined
  rw [htracks, List.tail_cons]
  exact List.getElem?_zip_eq_some.mpr ⟨hseam, hb⟩

theorem SetPlan.tracks_eq (htracks : p.tracks = first :: rest)
    (hlen : p.seams.length = rest.length) : first :: p.joined.map Prod.snd = p.tracks := by
  rw [htracks, SetPlan.joined, htracks, List.tail_cons, List.map_snd_zip hlen.ge]

theorem SetPlan.stopOf_eq (htracks : p.tracks = first :: rest)
    (hlen : p.seams.length = rest.length) (i : ℕ) :
    stopOf p.endS (p.joined.drop i) = p.stopS i := by
  have hseams : p.joined.map Prod.fst = p.seams := by
    rw [SetPlan.joined, htracks, List.tail_cons, List.map_fst_zip hlen.le]
  have hget : p.seams[i]? = p.joined[i]?.map Prod.fst := by
    rw [← List.getElem?_map, hseams]
  rw [stopOf, SetPlan.stopS, List.head?_drop, hget, Option.map_map]
  rfl

/-- A song is silent in time after its seam just when its echo is. -/
theorem SetPlan.silentAfter_iff (h : p.validate = .ok ()) {k : ℕ} {a b : Track} {seam : Seam}
    (ha : p.tracks[k]? = some a) (hb : p.tracks[k + 1]? = some b)
    (hseam : p.seams[k]? = some seam) :
    p.SilentAfter k ↔ (seam.recipe = .echoOut →
      2 * a.barS ≤ b.playOutS (p.stopS (k + 1) - b.enterS) + ROUNDING) := by
  obtain ⟨first, rest, htracks, hlen, hfits⟩ := SetPlan.validate_ok h
  have hround : (0 : ℚ) < ROUNDING := by norm_num [ROUNDING]
  obtain ⟨a', t', hsong, hplays, hjoins, hlater, -, hfalls, hlast⟩ :=
    layFrom_seam (k := 0) hfits 0 (SetPlan.joined_getElem? htracks hb hseam)
  rw [SetPlan.tracks_eq htracks hlen, ha] at hsong
  cases hsong
  have hstops := hlater.stops
  have halone := hlater.alone
  rw [SetPlan.stopOf_eq htracks hlen] at hjoins hfalls hstops halone
  rw [zero_add] at hfalls
  rw [← SetPlan.layout_eq htracks hfits] at hfalls hlast
  have hrideSrc := hlater.plays.rideSrc
  have henters := hjoins.body_le hplays
  have hbar := hplays.bar
  have hride := hplays.rideOut
  have hleaves := hjoins.le_aloneFrom hplays t'
  rw [← seamAudio_silent hplays hjoins (by linarith) halone t']
  constructor
  · rintro ⟨at_, hat', hsilent⟩ l hl htrack
    cases hfalls.alone.symm.trans hat'
    obtain ⟨hphrase, hset⟩ := hsilent l (hfalls.laid l hl) htrack
    cases hnext : p.seams[k + 1]? with
    | some next =>
      have := hphrase b next hb hnext
      rw [SetPlan.stopS, hnext]
      exact this
    | none =>
      have hcount : p.joined.length = k + 1 := by
        have hge := List.getElem?_eq_none_iff.mp hnext
        have hlt := (List.getElem?_eq_some_iff.mp hseam).1
        rw [SetPlan.joined, List.length_zip, htracks, List.tail_cons]
        omega
      have hend := hlast hcount
      rw [SetPlan.durationS, hend] at hset
      rw [SetPlan.stopS, hnext]
      exact hset
  · intro hseamSilent
    have hover : ∀ l ∈ p.layout.audio, l.track = k → l.outEnd ≤
        aloneFrom a seam t' + b.playOutS (p.stopS (k + 1) - b.enterS) + ROUNDING := by
      intro l hl htrack
      rcases hfalls.heard l hl htrack with hl | hended
      · exact hseamSilent l hl htrack
      · unfold phraseEnd at hleaves
        linarith
    refine ⟨_, hfalls.alone, fun l hl htrack => ⟨fun b' next hb' hnext => ?_, ?_⟩⟩
    · cases hb.symm.trans hb'
      have := hover l hl htrack
      rw [SetPlan.stopS, hnext] at this
      exact this
    · have := hover l hl htrack
      have := hfalls.ends
      unfold SetPlan.durationS
      linarith

/-- The layout of an accepted plan is sound just when its echoes fit. -/
theorem SetPlan.layout_sound (h : p.validate = .ok ()) : p.Sound ↔ p.EchoesFit := by
  constructor
  · intro hsound k a b seam ha hb hseam
    have hk := (List.getElem?_eq_some_iff.mp hseam).1
    exact (SetPlan.silentAfter_iff h ha hb hseam).mp (hsound.silent k hk)
  · intro hechoes
    obtain ⟨first, rest, htracks, hlen, hfits⟩ := SetPlan.validate_ok h
    have hlayout := SetPlan.layout_eq htracks hfits
    obtain ⟨last', hlaid⟩ := layFrom_laid_first hfits
    rw [← hlayout] at hlaid
    have hproper := layFrom_proper (k := 0) hfits 0
    have hcontinues := (layFrom_continues (k := 0) hfits 0).1
    rw [← hlayout] at hproper hcontinues
    refine ⟨hlaid.tiles, hlaid.srcStart, hlaid.runsOn, hproper, hcontinues, fun k hk => ?_⟩
    have hcount : p.tracks.length = p.seams.length + 1 := by
      rw [htracks, List.length_cons, hlen]
    have ha := List.getElem?_eq_getElem (l := p.tracks) (i := k) (by omega)
    have hb := List.getElem?_eq_getElem (l := p.tracks) (i := k + 1) (by omega)
    have hseam := List.getElem?_eq_getElem hk
    exact (SetPlan.silentAfter_iff h ha hb hseam).mpr (hechoes k _ _ _ ha hb hseam)

/-- A song that rides back to its own tempo after a swap and leaves by an echo. -/
def eveningSet : SetPlan where
  tracks :=
    [{ entryId := "a", path := "/media/a.mkv", nativeBpm := 120, enterS := 0, ratio := 1 },
      { entryId := "b", path := "/media/b.mkv", nativeBpm := 100, enterS := 8, ratio := 6 / 5,
        rideBars := 4 },
      { entryId := "c", path := "/media/c.mkv", nativeBpm := 90, enterS := 10, ratio := 1 }]
  seams := [{ recipe := .bassSwap, outS := 32, bars := 4 }, { recipe := .echoOut, outS := 48 }]
  endS := 40
  output := "/media/sets/evening.mkv"

theorem SetPlan.layout_sound_evening : eveningSet.Sound := by
  apply (SetPlan.layout_sound (by decide +kernel)).mpr
  intro k a b seam ha hb hseam hecho
  match k with
  | 0 =>
    cases hseam
    cases hecho
  | 1 =>
    cases ha
    cases hb
    decide +kernel
  | k + 2 => cases hseam

/-- The echo of a song rings for `5 1/3` s, and the song it rings into leaves after `4` s. -/
def lateEcho : SetPlan where
  tracks :=
    [{ entryId := "a", path := "/media/a.mkv", nativeBpm := 90, enterS := 0, ratio := 1 },
      { entryId := "b", path := "/media/b.mkv", nativeBpm := 120, enterS := 32, ratio := 1 },
      { entryId := "c", path := "/media/c.mkv", nativeBpm := 120, enterS := 0, ratio := 1 }]
  seams := [{ recipe := .echoOut, outS := 32 }, { recipe := .dropMix, outS := 36 }]
  endS := 60
  output := "/media/sets/late.mkv"

theorem lateEcho_unsound : lateEcho.validate = .ok () ∧ ¬ lateEcho.Sound := by
  have hvalid : lateEcho.validate = .ok () := by decide +kernel
  refine ⟨hvalid, fun hsound => ?_⟩
  have hfits := (SetPlan.silentAfter_iff hvalid rfl rfl rfl).mp (hsound.silent 0 (by decide)) rfl
  revert hfits
  decide +kernel

end Plan

end EtvStation.Render
