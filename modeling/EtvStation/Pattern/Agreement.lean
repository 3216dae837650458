import EtvStation.Pattern.Free

/-! Unconstrained pools that agree draw alike: pass by pass through a visit's loop, then over
the whole visit. -/
namespace EtvStation

namespace PoolRuntime

section Loop

variable (cat : Catalog) {take take' : ℕ}

theorem took_of_free {s : Serving} {rt : PoolRuntime} (hfree : rt.Free)
    (hc : s.channel.isUnconstrained = true) (si : ℕ) (taken : List EntryId) :
    (s.took cat rt si taken).rt = rt ∧ (s.took cat rt si taken).channel = s.channel :=
  ⟨remember_of_free hfree taken, ChannelHistory.remember_of_unconstrained hc cat taken⟩

/-- Visits under way in pools that agree, with as much left to draw, draw the same. -/
theorem serveLoop_agree (passes passes' : ℕ) (current : Option ℕ) (s t : Serving)
    (hs : s.rt.Free) (hsc : s.channel.isUnconstrained = true)
    (htc : t.channel.isUnconstrained = true) (hagree : s.rt.Agree t.rt)
    (ht : t.rt.Free) (hsr : InRange s.rt.series) (htr : InRange t.rt.series)
    (hcur : ∀ si, current = some si → si < s.rt.series.length)
    (hneed : take - s.out.length = take' - t.out.length) (hpos : 0 < take - s.out.length)
    (hp : take - s.out.length < passes) (hp' : take - s.out.length < passes') :
    ∃ draws, s.Continues (serveLoop cat take passes current s) draws ∧
      t.Continues (serveLoop cat take' passes' current t) draws ∧
      (serveLoop cat take passes current s).rt.Agree (serveLoop cat take' passes' current t).rt ∧
      (serveLoop cat take passes current s).channel = s.channel ∧
      (serveLoop cat take' passes' current t).channel = t.channel := by
  induction passes generalizing passes' current s t with
  | zero => omega
  | succ passes ih =>
    obtain ⟨passes', rfl⟩ : ∃ n, passes' = n + 1 := ⟨passes' - 1, by omega⟩
    cases current with
    | none => exact ⟨[], .refl s, .refl t, hagree, rfl, rfl⟩
    | some si =>
      have hsi := hcur si rfl
      have hti : si < t.rt.series.length := by rw [hagree.length_eq]; exact hsi
      have hfst := hagree.takeFrom_fst si (take - s.out.length)
      have hsnd := hagree.takeFrom_snd si (take - s.out.length)
      have hget := exists_getElem? hsi
      obtain ⟨hne, -⟩ := takeFrom_drew hget (hsr _ (List.mem_of_getElem? hget)) hpos
      have hempty : (s.rt.takeFrom si (take - s.out.length)).1.isEmpty = false := by
        simpa using hne
      have hfree : (s.rt.takeFrom si (take - s.out.length)).2.Free :=
        hs.of_moved (takeFrom_moved _ _ _)
      have hfree' : (t.rt.takeFrom si (take - s.out.length)).2.Free :=
        ht.of_moved (takeFrom_moved _ _ _)
      obtain ⟨hrt, hch⟩ := took_of_free cat hfree hsc si
        (s.rt.takeFrom si (take - s.out.length)).1
      obtain ⟨hrt', hch'⟩ := took_of_free cat hfree' htc si
        (s.rt.takeFrom si (take - s.out.length)).1
      simp only [serveLoop, ← hneed, hfst, hempty, Bool.false_eq_true, if_false]
      set taken := (s.rt.takeFrom si (take - s.out.length)).1 with htaken
      set s' := s.took cat (s.rt.takeFrom si (take - s.out.length)).2 si taken with hs'
      set t' := t.took cat (t.rt.takeFrom si (take - s.out.length)).2 si taken with ht'
      have hslen : s'.out.length = s.out.length + taken.length := List.length_append
      have htlen : t'.out.length = t.out.length + taken.length := List.length_append
      have htakenpos : 0 < taken.length := List.length_pos_iff.mpr hne
      have hagree' : s'.rt.Agree t'.rt := by rw [hrt, hrt']; exact hsnd
      have hstop : take ≤ s'.out.length ↔ take' ≤ t'.out.length := by omega
      have hstep : s.Continues s' [(si, taken)] := took_continues cat hsi hsr hpos (Chose.refl _)
      have hstep' : t.Continues t' [(si, taken)] := by
        have hcont : t.Continues (t.took cat (t.rt.takeFrom si (take - s.out.length)).2 si
            (t.rt.takeFrom si (take - s.out.length)).1) _ :=
          took_continues cat hti htr hpos (Chose.refl _)
        rw [hfst] at hcont
        exact hcont
      by_cases hdone : take ≤ s'.out.length
      · rw [if_pos hdone, if_pos (hstop.mp hdone)]
        exact ⟨_, hstep, hstep', hagree', hch, hch'⟩
      · have hturn := shortTurn_of_free (hrt ▸ hfree) (hch ▸ hsc) si
        have hturn' := shortTurn_of_free (hrt' ▸ hfree') (hch' ▸ htc) si
        rw [if_neg hdone, if_neg (fun h => hdone (hstop.mpr h)), hturn, hturn',
          hagree'.freeTurn_eq]
        have hlen : s'.rt.series.length = s.rt.series.length := hstep.drew.length_eq
        obtain ⟨draws, hc, hc', ha, hk, hk'⟩ := ih passes' (s'.rt.freeTurn si)
          { s' with rt := s'.rt, channel := s'.channel } { t' with rt := t'.rt, channel := t'.channel }
          (hrt ▸ hfree) (hch ▸ hsc) (hch' ▸ htc) hagree' (hrt' ▸ hfree')
          (hstep.drew.inRange hsr) (hstep'.drew.inRange htr)
          (fun next hnext => by
            have hturned : (s'.rt.shortTurn si s'.channel).1 = some next := by
              rw [hturn]
              exact hnext
            exact shortTurn_lt (hlen ▸ hsi) hturned)
          (by omega) (by omega) (by omega) (by omega)
        exact ⟨_, hstep.trans hc, hstep'.trans hc', ha, hk.trans hch, hk'.trans hch'⟩

end Loop

section Visit

variable {cat : Catalog} {a b a' : PoolRuntime} {ch ch' chb : ChannelHistory}

theorem passHold_of_free {rt : PoolRuntime} (h : rt.Free) (first last : Option ℕ) :
    rt.passHold first last = rt := by
  unfold passHold
  split
  · next hperiod => simp [h.period] at hperiod
  · rfl

theorem Agree.noteLap (h : a.Agree b) (contributed : List ℕ) :
    (a.noteLap contributed).Agree (b.noteLap contributed) := by
  have hkeys : b.series.map (·.key) = a.series.map (·.key) := by
    have hcore : ∀ l : List Series, (l.map Series.core).map (·.key) = l.map (·.key) :=
      fun l => by rw [List.map_map]; rfl
    rw [← hcore, h.core_eq, hcore]
  have hcontributed : (contributed.map fun si => (b.nth si).key) =
      contributed.map fun si => (a.nth si).key :=
    List.map_congr_left fun si _ => h.key_eq si
  have hall : ∀ (lap : Finset String) (l : List Series),
      (l.all fun s => decide (s.key ∈ lap)) = (l.map (·.key)).all fun k => decide (k ∈ lap) :=
    fun lap l => by rw [List.all_map]; rfl
  refine ⟨h.cfg_eq, h.core_eq, ?_, h.turn_eq⟩
  simp only [PoolRuntime.noteLap, hcontributed, h.lap_eq, hall, hkeys]

theorem Agree.park (h : a.Agree b) (last : Option ℕ) (contributed : HashMap ℕ ℕ) (take : ℕ) :
    (a.park last contributed take).Agree (b.park last contributed take) := by
  cases last with
  | none => exact h
  | some si =>
    cases hsel : a.cfg.select with
    | random =>
      have hsel' : b.cfg.select = .random := by rw [h.cfg_eq, hsel]
      simpa only [PoolRuntime.park, hsel, hsel'] using h
    | roundRobin =>
      have hsel' : b.cfg.select = .roundRobin := by rw [h.cfg_eq, hsel]
      simp only [PoolRuntime.park, hsel, hsel', h.cursor_eq, seriesAfter, h.seriesAt_eq]
      exact ⟨h.cfg_eq, h.core_eq, h.lap_eq, fun _ => h.seriesAt_eq _⟩

theorem Agree.resumable (h : a.Agree b) (x y : Bool) :
    Agree { a with visitResumable := x } { b with visitResumable := y } :=
  ⟨h.cfg_eq, h.core_eq, h.lap_eq, h.turn_eq⟩

theorem Serving.finish_agree {s t : Serving} (hs : s.rt.Free) (ht : t.rt.Free)
    (h : s.rt.Agree t.rt) (hcontributed : t.contributed = s.contributed) (hlast : t.last = s.last)
    (from_ : TakeFrom) (first : Option ℕ) (take : ℕ) :
    (s.finish from_ first take).2.1.Agree (t.finish from_ first take).2.1 := by
  simp only [Serving.finish, passHold_of_free hs, passHold_of_free ht, hcontributed, hlast]
  exact ((h.noteLap _).resumable _ _).park _ _ _

theorem serveDraws_start (rt : PoolRuntime) (first : Option ℕ) (take : ℕ) (roll : RollKey)
    (nonce : UInt64) (ch : ChannelHistory) :
    rt.serveDraws cat .start first take roll nonce ch =
      (serveLoop cat take (take + rt.series.length + 1) first { rt, channel := ch }).finish
        .start first take := by
  cases first <;> rfl

theorem serveDraws_agree (cat : Catalog) (ha : a.Free) (hb : b.Free) (hac : ch.isUnconstrained = true)
    (hbc : chb.isUnconstrained = true) (h : a.Agree b) (har : InRange a.series)
    (hbr : InRange b.series) {first : Option ℕ}
    (hfirst : ∀ si, first = some si → si < a.series.length) {take : ℕ} (htake : 0 < take)
    (roll : RollKey) (nonce : UInt64) :
    ∃ out a' b', a.serveDraws cat .start first take roll nonce ch = (out, a', ch) ∧
      b.serveDraws cat .start first take roll nonce chb = (out, b', chb) ∧ a'.Agree b' := by
  obtain ⟨draws, hc, hc', hagree, hk, hk'⟩ := serveLoop_agree cat
    (take + a.series.length + 1) (take + b.series.length + 1) first
    { rt := a, channel := ch } { rt := b, channel := chb } ha hac hbc h hb har hbr hfirst rfl
    (by simpa using htake) (by dsimp only [List.length_nil]; omega)
    (by dsimp only [List.length_nil]; omega)
  have hcontributed := hc'.contributed_eq.trans hc.contributed_eq.symm
  have hlast := hc'.last_eq.trans hc.last_eq.symm
  rw [serveDraws_start, serveDraws_start]
  refine ⟨_, _, _, Prod.ext rfl (Prod.ext rfl hk), Prod.ext ?_ (Prod.ext rfl hk'), ?_⟩
  · exact hc'.out_eq.trans hc.out_eq.symm
  · exact Serving.finish_agree (ha.of_moved hc.moved) (hb.of_moved hc'.moved) hagree
      hcontributed hlast _ _ _

theorem serveTake_agree (ha : a.Free) (hb : b.Free) (h : a.Agree b) (want : Draw)
    (first : Option ℕ) (done : ℕ) : b.serveTake want first done = a.serveTake want first done := by
  unfold serveTake
  rw [overrideTake_of_free ha, overrideTake_of_free hb]
  cases want with
  | count n => rfl
  | all =>
    cases first with
    | none => rfl
    | some si => simp only [Series.remaining, h.ids_eq, h.cursor_eq]

/-- A whole serve from pools that agree: the same ids, and pools that agree. -/
theorem serve_agree (ha : a.Free) (hb : b.Free) (hac : ch.isUnconstrained = true)
    (hbc : chb.isUnconstrained = true) (h : a.Agree b) (har : InRange a.series)
    (hbr : InRange b.series) {want : Draw} {done : ℕ} (hwants : a.Wants want done)
    {roll : RollKey} {nonce : UInt64} {out : List EntryId}
    (hserve : a.serve cat want .start roll nonce done ch = .ok (out, a', ch')) :
    ch' = ch ∧ ∃ b', b.serve cat want .start roll nonce done chb = .ok (out, b', chb) ∧
      a'.Agree b' := by
  have hlt : ∀ si, a.freePick roll nonce = some si → si < a.series.length := fun si hsi => by
    have hfirst : (a.firstSeries roll nonce ch).1 = some si := by
      rw [firstSeries_of_free ha hac]
      exact hsi
    exact firstSeries_lt hfirst
  simp only [serve, firstSeries_of_free ha hac] at hserve
  simp only [serve, firstSeries_of_free hb hbc, h.freePick_eq, serveTake_agree ha hb h]
  cases htake : a.serveTake want (a.freePick roll nonce) done with
  | none =>
    simp only [htake, Except.ok.injEq, Prod.mk.injEq] at hserve
    obtain ⟨rfl, rfl, rfl⟩ := hserve
    exact ⟨rfl, b, rfl, h⟩
  | some take =>
    have hpos := serveTake_pos hwants har hlt htake
    obtain ⟨out₁, a₁, b₁, ha₁, hb₁, hagree⟩ := serveDraws_agree cat ha hb hac hbc h har
      hbr hlt hpos roll nonce
    have hauth : b.authoredTake want (a.freePick roll nonce) =
        a.authoredTake want (a.freePick roll nonce) := by
      simp only [authoredTake, overrideTake_of_free ha, overrideTake_of_free hb]
    simp only [htake, ha₁] at hserve
    simp only [hauth, hb₁]
    split at hserve
    · next n _ =>
      split_ifs at hserve with hmax
      simp only [Except.ok.injEq, Prod.mk.injEq] at hserve
      obtain ⟨rfl, rfl, rfl⟩ := hserve
      exact ⟨rfl, b₁, by simp only [hmax, if_false], hagree⟩
    · simp only [Except.ok.injEq, Prod.mk.injEq] at hserve
      obtain ⟨rfl, rfl, rfl⟩ := hserve
      exact ⟨rfl, b₁, rfl, hagree⟩

theorem Agree.isDry_eq (h : a.Agree b) : b.isDry = a.isDry := by
  rw [isDry, isDry, Bool.eq_iff_iff, List.isEmpty_iff_length_eq_zero,
    List.isEmpty_iff_length_eq_zero, h.length_eq]

theorem serveSlots_agree (left slot : ℕ) {out out' : List EntryId} {roll : RollKey}
    (ha : a.Free) (hb : b.Free) (hac : ch.isUnconstrained = true)
    (hbc : chb.isUnconstrained = true) (h : a.Agree b) (har : InRange a.series)
    (hbr : InRange b.series)
    (hserve : serveSlots cat .start roll left slot out a ch = .ok (out', a', ch')) :
    ch' = ch ∧ ∃ b', serveSlots cat .start roll left slot out b chb = .ok (out', b', chb) ∧
      a'.Agree b' := by
  induction left generalizing slot a b out ch with
  | zero =>
    simp only [serveSlots, Except.ok.injEq, Prod.mk.injEq] at hserve
    obtain ⟨rfl, rfl, rfl⟩ := hserve
    exact ⟨rfl, b, rfl, h⟩
  | succ left ih =>
    simp only [serveSlots, h.isDry_eq] at hserve ⊢
    split_ifs at hserve ⊢ with hdry
    · simp only [Except.ok.injEq, Prod.mk.injEq] at hserve
      obtain ⟨rfl, rfl, rfl⟩ := hserve
      exact ⟨rfl, b, rfl, h⟩
    · have hwants : ∀ rt : PoolRuntime, rt.Free → rt.Wants (.count 1) 0 := fun rt hrt =>
        ⟨fun n hn => by cases hn; exact Nat.one_pos, fun first n hn => by
          simp [overrideTake_of_free hrt] at hn⟩
      obtain ⟨⟨ids, a₁, ch₁⟩, hone, hrest⟩ := Lib.bind_eq_ok.mp hserve
      obtain ⟨rfl, b₁, hone', hagree⟩ := serve_agree ha hb hac hbc h har hbr (hwants a ha) hone
      have hva := serve_visited cat har (hwants a ha) hone
      have hvb := serve_visited cat hbr (hwants b hb) hone'
      obtain ⟨_, hda, -⟩ := hva.drew
      obtain ⟨_, hdb, -⟩ := hvb.drew
      obtain ⟨rfl, b', hrest', hagree'⟩ := ih (slot + 1) (ha.of_moved hva.moved)
        (hb.of_moved hvb.moved) hac hagree (hda.inRange har) (hdb.inRange hbr) hrest
      exact ⟨rfl, b', Lib.bind_eq_ok.mpr ⟨_, hone', hrest'⟩, hagree'⟩

/-- Pools that agree visit alike. -/
theorem visit_agree (ha : a.Free) (hb : b.Free) (hac : ch.isUnconstrained = true)
    (hbc : chb.isUnconstrained = true) (h : a.Agree b) (har : InRange a.series)
    (hbr : InRange b.series) {take : Take} {roll : RollKey} {done : ℕ} {out : List EntryId}
    (hwants : a.WantsVisit take roll done)
    (hvisit : a.visit cat take .start roll done ch = .ok (out, a', ch')) :
    ch' = ch ∧ ∃ b', b.visit cat take .start roll done chb = .ok (out, b', chb) ∧
      a'.Agree b' := by
  have hopen := h.resumable false false
  have hfree : Free { a with visitResumable := false } := ⟨ha.limits, ha.overrides, ha.period⟩
  have hfree' : Free { b with visitResumable := false } := ⟨hb.limits, hb.overrides, hb.period⟩
  simp only [visit] at hvisit ⊢
  rw [hopen.isDry_eq]
  split at hvisit
  · next hnone =>
    simp only [Except.ok.injEq, Prod.mk.injEq] at hvisit
    obtain ⟨rfl, rfl, rfl⟩ := hvisit
    rw [if_pos hnone]
    exact ⟨rfl, _, rfl, hopen⟩
  · next hnone =>
    have hne : resolveTake take roll ≠ .count 0 := by
      intro hzero
      simp [hzero] at hnone
    have hrotate : b.cfg.rotate = a.cfg.rotate := by rw [h.cfg_eq]
    rw [if_neg hnone]
    simp only [hrotate]
    split at hvisit
    · split at hvisit
      · simp at hvisit
      · next hmax =>
        obtain ⟨⟨ids, a₁, ch₁⟩, hslots, hvisit⟩ := Lib.bind_eq_ok.mp hvisit
        simp only [pure, Except.pure, Except.ok.injEq, Prod.mk.injEq] at hvisit
        obtain ⟨rfl, rfl, rfl⟩ := hvisit
        obtain ⟨rfl, b₁, hslots', hagree⟩ := serveSlots_agree _ _ hfree hfree' hac hbc hopen har
          hbr hslots
        refine ⟨rfl, { b₁ with visitResumable := false }, ?_, hagree.resumable _ _⟩
        simp only [hmax, if_false]
        exact Lib.bind_eq_ok.mpr ⟨_, hslots', rfl⟩
    · exact serve_agree hfree hfree' hac hbc hopen har hbr (hwants hne) hvisit
    · exact serve_agree hfree hfree' hac hbc hopen har hbr (hwants hne) hvisit

end Visit

end PoolRuntime

end EtvStation
