import EtvStation.Lib.Loop
import EtvStation.Pattern.Channel
import EtvStation.Pattern.Free
import EtvStation.Pattern.Full

/-! A pool of films drawn in turn: whatever the visits take, they come round in one order. -/
namespace EtvStation.PoolRuntime

/-- A round-robin pool of one-item series that nothing constrains. -/
structure Films (rt : PoolRuntime) : Prop where
  single : ∀ s ∈ rt.series, s.ids.length = 1
  inRange : InRange rt.series
  select : rt.cfg.select = .roundRobin
  onShort : rt.cfg.onShort = .next
  limits : rt.limits.isUnconstrained = true

def films (rt : PoolRuntime) : List EntryId := rt.series.flatMap (·.ids)

theorem films_of_labels {a b : PoolRuntime}
    (h : b.series.map Series.label = a.series.map Series.label) : b.films = a.films := by
  have hids := congrArg (·.flatMap Prod.snd) h
  rw [List.flatMap_map, List.flatMap_map] at hids
  exact hids

namespace Films

variable {rt rt' : PoolRuntime} {ch : ChannelHistory} {si : ℕ}

theorem of_kept (h : rt.Films) (hkept : Kept rt.series rt'.series) (hcfg : rt'.cfg = rt.cfg)
    (hlimits : rt'.limits = rt.limits) : rt'.Films where
  single := by
    intro t ht
    have hlabel : t.label ∈ rt.series.map Series.label := by
      rw [← hkept.labels]
      exact List.mem_map_of_mem ht
    obtain ⟨s, hs, heq⟩ := List.mem_map.mp hlabel
    have hids : s.ids = t.ids := congrArg Prod.snd heq
    rw [← hids]
    exact h.single s hs
  inRange := hkept.inRange
  select := by
    rw [hcfg]
    exact h.select
  onShort := by
    rw [hcfg]
    exact h.onShort
  limits := by
    rw [hlimits]
    exact h.limits

theorem single_eq (h : rt.Films) {s : Series} (hs : s ∈ rt.series) :
    ∃ x, s.ids = [x] ∧ s.cursor = 0 := by
  have hlen := h.single s hs
  have hcursor := h.inRange s hs
  obtain ⟨x, hx⟩ := List.length_eq_one_iff.mp hlen
  exact ⟨x, hx, by omega⟩

theorem films_eq (h : rt.Films) : rt.films = rt.series.map fun s => s.ids.headD "" := by
  have hone : ∀ s ∈ rt.series, s.ids = [s.ids.headD ""] := by
    intro s hs
    obtain ⟨x, hx, -⟩ := h.single_eq hs
    rw [hx]
    rfl
  rw [films, List.map_eq_flatMap]
  exact List.flatMap_congr hone

theorem length_films (h : rt.Films) : rt.films.length = rt.series.length := by
  rw [h.films_eq, List.length_map]

/-- A film never rests. -/
theorem not_rested (h : rt.Films) (si : ℕ) : rt.rested si = false := by
  by_contra hrested
  have hrested : rt.rested si = true := by simpa using hrested
  have hmem := List.mem_of_getElem? (exists_getElem? (rested_lt hrested))
  have hlen := h.single _ hmem
  simp [rested, hlen] at hrested

theorem isUnconstrained (h : rt.Films) (hc : ch.isUnconstrained = true) :
    rt.isUnconstrained ch = true := by
  have hany : (List.range rt.series.length).any rt.rested = false := by
    apply List.any_eq_false.mpr
    intro i _
    simp [h.not_rested]
  rw [PoolRuntime.isUnconstrained, h.limits, hc, hany]
  rfl

theorem firstSeries (h : rt.Films) (hc : ch.isUnconstrained = true) (hperiod : rt.period = none)
    (roll : RollKey) (nonce : UInt64) :
    rt.firstSeries roll nonce ch = (rt.seriesAt rt.rotation, rt, ch) := by
  have hpick : rt.pick roll nonce = rt.seriesAt rt.rotation := by rw [pick, h.select]
  unfold PoolRuntime.firstSeries eligiblePick
  rw [hperiod]
  dsimp only
  rw [hpick]
  cases rt.seriesAt rt.rotation with
  | none => rfl
  | some first => simp only [h.isUnconstrained hc, Bool.true_or, if_true]

theorem shortTurn (h : rt.Films) (hc : ch.isUnconstrained = true) (si : ℕ) :
    rt.shortTurn si ch = (rt.seriesAfter si, rt, ch) := by
  unfold PoolRuntime.shortTurn eligibleFrom
  rw [h.onShort]
  cases rt.seriesAfter si with
  | none => rfl
  | some next => simp only [h.isUnconstrained hc, if_true]

/-- A film's turn gives the film. -/
theorem takeFrom (h : rt.Films) (hsi : si < rt.series.length) {want : ℕ} (hwant : 0 < want) :
    (rt.takeFrom si want).1 = Lib.loop rt.films si 1 := by
  have hget := exists_getElem? hsi
  obtain ⟨x, hx, hcursor⟩ := h.single_eq (List.mem_of_getElem? hget)
  have hfilm : rt.films[si]? = some x := by
    rw [h.films_eq, List.getElem?_map, hget, Option.map_some, hx]
    rfl
  have hlt : si + 1 ≤ rt.films.length := by
    rw [h.length_films]
    exact hsi
  have hone : min want (rt.nth si).remaining = 1 := by
    rw [Series.remaining, hx, hcursor, List.length_singleton]
    omega
  rw [Lib.loop_eq_slice hlt, List.take_one, List.head?_drop, hfilm]
  simp only [PoolRuntime.takeFrom, hone, hx, hcursor]
  rfl

end Films

section Visits

variable {cat : Catalog} {rt rt' : PoolRuntime} {from_ : TakeFrom} {roll : RollKey}
  {ch ch' : ChannelHistory} {out : List EntryId}

/-- A visit's passes give one film each, from the one it opened on round to the one it stops
on. -/
theorem serveLoop_films {take si : ℕ} (passes : ℕ) {s : Serving} (h : s.rt.Films)
    (hc : s.channel.isUnconstrained = true) (hsi : si < s.rt.series.length)
    (hneed : s.out.length < take) (hpasses : take - s.out.length ≤ passes) :
    ∃ last, (serveLoop cat take passes (some si) s).last = some last ∧
      last < s.rt.series.length ∧
      (last + 1) % s.rt.series.length = (si + (take - s.out.length)) % s.rt.series.length ∧
      (serveLoop cat take passes (some si) s).out =
        s.out ++ Lib.loop s.rt.films si (take - s.out.length) := by
  induction passes generalizing s si with
  | zero => omega
  | succ passes ih =>
    have hwant : 0 < take - s.out.length := Nat.sub_pos_of_lt hneed
    have htaken := h.takeFrom hsi hwant
    have hlen : (Lib.loop s.rt.films si 1).length = 1 := by
      apply Lib.length_loop
      apply List.ne_nil_of_length_pos
      rw [h.length_films]
      omega
    have hout : (s.pass cat take si).out = s.out ++ Lib.loop s.rt.films si 1 :=
      congrArg (s.out ++ ·) htaken
    have houtlen : (s.pass cat take si).out.length = s.out.length + 1 := by
      rw [hout, List.length_append, hlen]
    have hchannel : (s.pass cat take si).channel = s.channel :=
      ChannelHistory.remember_of_unconstrained hc cat _
    obtain ⟨hcont, -, -⟩ := pass_continues cat h.inRange hsi hneed
    have hkept : Kept s.rt.series (s.pass cat take si).rt.series :=
      ⟨hcont.drew.inRange h.inRange, drew_labels hcont.drew⟩
    have hlimits : (s.pass cat take si).rt.limits = s.rt.limits := by
      obtain ⟨_, _, _, _, _, _, _, _, heq, -⟩ := hcont.moved
      rw [heq]
    have hpass := h.of_kept hkept hcont.moved.cfg_eq hlimits
    rw [serveLoop_pass cat passes h.inRange hsi hneed]
    by_cases hdone : take ≤ (s.pass cat take si).out.length
    · rw [if_pos hdone]
      have hone : take - s.out.length = 1 := by omega
      rw [hone]
      exact ⟨si, rfl, hsi, rfl, hout⟩
    · rw [if_neg hdone]
      have hturn := hpass.shortTurn (hchannel.symm ▸ hc) si
      have hafter := seriesAfter_eq (hkept.length_eq.symm ▸ hsi)
      have hnext : ((s.pass cat take si).rt.shortTurn si (s.pass cat take si).channel).1 =
          some ((si + 1) % s.rt.series.length) := by
        rw [hturn, hafter, hkept.length_eq]
      have hturned : (s.pass cat take si).turned si = s.pass cat take si := by
        rw [Serving.turned, hturn]
      rw [hnext, hturned]
      have hlt : (si + 1) % s.rt.series.length < (s.pass cat take si).rt.series.length := by
        rw [hkept.length_eq]
        exact Nat.mod_lt _ (Nat.zero_lt_of_lt hsi)
      obtain ⟨last, hlast, hbound, hstop, hrest⟩ :=
        ih hpass (hchannel.symm ▸ hc) hlt (by omega) (by omega)
      rw [hkept.length_eq] at hbound hstop
      have hleft : take - s.out.length = 1 + (take - (s.pass cat take si).out.length) := by omega
      generalize take - (s.pass cat take si).out.length = left at hstop hrest hleft
      refine ⟨last, hlast, hbound, ?_, ?_⟩
      · rw [hstop, hleft, Nat.mod_add_mod, Nat.add_assoc]
      · rw [hrest, hout, films_of_labels hkept.labels, hleft, Lib.loop_add, ← h.length_films,
          Lib.loop_mod, List.append_assoc]

/-- What was drawn is the films from the rotation on, and the rotation stands after them. -/
structure Rotated (rt : PoolRuntime) (out : List EntryId) (rt' : PoolRuntime) : Prop where
  films : rt'.Films
  same : rt'.films = rt.films
  drawn : out = Lib.loop rt.films rt.rotation out.length
  next : rt'.rotation % rt.films.length = (rt.rotation + out.length) % rt.films.length

namespace Rotated

theorem refl (h : rt.Films) : rt.Rotated [] rt := ⟨h, rfl, rfl, rfl⟩

theorem trans {a b c : PoolRuntime} {out out' : List EntryId} (h : a.Rotated out b)
    (h' : b.Rotated out' c) : a.Rotated (out ++ out') c where
  films := h'.films
  same := h'.same.trans h.same
  drawn := by
    have hrest := h'.drawn
    rw [h.same, ← Lib.loop_mod, h.next, Lib.loop_mod] at hrest
    rw [List.length_append, Lib.loop_add, ← h.drawn, ← hrest]
  next := by
    have hnext := h'.next
    rw [h.same] at hnext
    rw [hnext, Nat.add_mod, h.next, ← Nat.add_mod, List.length_append, Nat.add_assoc]

end Rotated

/-- A visit that ran its last series out parks the rotation on the one after. -/
theorem finish_rotation {s : Serving} {last : ℕ} (hlast : s.last = some last)
    (hselect : s.rt.cfg.select = .roundRobin) (hlt : last < s.rt.series.length)
    (hcursor : (s.rt.nth last).cursor = 0) (first : Option ℕ) (take : ℕ) :
    (s.finish from_ first take).2.1.rotation = (last + 1) % s.rt.series.length := by
  have hseries := passHold_series s.rt first s.last
  have hcfg := (passHold_moved s.rt first s.last).cfg_eq
  have hnth : (s.rt.passHold first s.last).nth last = s.rt.nth last := by rw [nth, nth, hseries]
  have hafter : (s.rt.passHold first s.last).seriesAfter last =
      some ((last + 1) % s.rt.series.length) := by
    rw [seriesAfter_eq (hseries.symm ▸ hlt), hseries]
  rw [hlast] at hseries hcfg hnth hafter
  have hparked : ∀ (rt : PoolRuntime), rt.cfg.select = .roundRobin → (rt.nth last).cursor = 0 →
      (rt.park (some last) s.contributed take).rotation = (rt.seriesAfter last).getD last := by
    intro rt hselect hcursor
    simp only [park, hselect, hcursor, or_true, if_true]
  rw [Serving.finish, hlast]
  dsimp only
  rw [hparked]
  · exact congrArg (·.getD last) hafter
  · exact hcfg.symm ▸ hselect
  · exact (congrArg Series.cursor hnth).trans hcursor

/-- What a visit of `take` films gives, and where it leaves the rotation. -/
theorem finish_films (h : rt.Films) (hc : ch.isUnconstrained = true) {first : ℕ}
    (hfirst : first < rt.series.length) {take passes : ℕ} (htake : 0 < take)
    (hpasses : take ≤ passes) {s : Serving}
    (hs : serveLoop cat take passes (some first) { rt, channel := ch } = s) :
    s.out = Lib.loop rt.films first take ∧
      (s.finish from_ (some first) take).2.1.rotation = (first + take) % rt.series.length := by
  have hneed : ({ rt, channel := ch } : Serving).out.length < take := htake
  obtain ⟨last, hlast, hbound, hstop, hout⟩ :=
    @serveLoop_films cat take first passes { rt, channel := ch } h hc hfirst hneed hpasses
  obtain ⟨draws, hcont, -⟩ := serveLoop_continues cat take passes (some first)
    { rt, channel := ch } h.inRange (fun si hsi => Option.some.inj hsi ▸ hfirst) hneed
  rw [hs] at hlast hout hcont
  have hkept : Kept rt.series s.rt.series := ⟨hcont.drew.inRange h.inRange, drew_labels hcont.drew⟩
  have hlimits : s.rt.limits = rt.limits := by
    obtain ⟨_, _, _, _, _, _, _, _, heq, -⟩ := hcont.moved
    rw [heq]
  have hfilms := h.of_kept hkept hcont.moved.cfg_eq hlimits
  have hlt : last < s.rt.series.length := by
    rw [hkept.length_eq]
    exact hbound
  obtain ⟨x, -, hcursor⟩ := hfilms.single_eq (List.mem_of_getElem? (exists_getElem? hlt))
  refine ⟨hout, ?_⟩
  rw [finish_rotation hlast hfilms.select hlt hcursor, hkept.length_eq]
  exact hstop

theorem serveDraws_films (h : rt.Films) (hc : ch.isUnconstrained = true) {first : ℕ}
    (hfirst : rt.seriesAt rt.rotation = some first) (take : ℕ) (nonce : UInt64) :
    rt.Rotated (rt.serveDraws cat from_ (some first) take roll nonce ch).1
      (rt.serveDraws cat from_ (some first) take roll nonce ch).2.1 := by
  have hlt := seriesAt_lt hfirst
  have hkept := @serveDraws_kept cat rt from_ roll ch h.inRange (some first)
    (fun si hsi => Option.some.inj hsi ▸ hlt) take nonce
  have hlimits : ∀ {rt' : PoolRuntime}, rt.Moved rt' → rt'.limits = rt.limits := by
    intro rt' hmoved
    obtain ⟨_, _, _, _, _, _, _, _, heq, -⟩ := hmoved
    rw [heq]
  have hmoved := serveDraws_moved cat rt from_ (some first) take roll nonce ch
  have hfilms := h.of_kept hkept hmoved.cfg_eq (hlimits hmoved)
  have hsame := films_of_labels hkept.labels
  cases take with
  | zero =>
    obtain ⟨hout, -⟩ := serveDraws_zero cat rt from_ (some first) roll nonce ch
    have hrotation := serveDraws_zero_rotation cat rt from_ (some first) roll nonce ch
    refine ⟨hfilms, hsame, ?_, ?_⟩
    · rw [hout]
      rfl
    · rw [hout, hrotation]
      rfl
  | succ n =>
    have hget := exists_getElem? hlt
    obtain ⟨c, hcursor, -, hplaced⟩ := placeCursor_series hget
      (h.inRange _ (List.mem_of_getElem? hget)) (Nat.succ_pos n) from_ roll nonce
    have hplacedMoved := placeCursor_moved rt from_ first (n + 1) roll nonce
    have hplacedKept : Kept rt.series (rt.placeCursor from_ first (n + 1) roll nonce).series := by
      rw [hplaced]
      exact ⟨h.inRange.set hcursor, set_label hget rfl⟩
    have hplacedFilms := h.of_kept hplacedKept hplacedMoved.cfg_eq (hlimits hplacedMoved)
    have hplacedLt : first < (rt.placeCursor from_ first (n + 1) roll nonce).series.length := by
      rw [hplacedKept.length_eq]
      exact hlt
    obtain ⟨hout, hrotation⟩ := @finish_films cat _ from_ ch hplacedFilms hc first hplacedLt (n + 1)
      (n + 1 + (rt.placeCursor from_ first (n + 1) roll nonce).series.length + 1) (Nat.succ_pos n)
      (by omega) _ rfl
    have hstart : first = rt.rotation % rt.films.length := by
      unfold seriesAt at hfirst
      split_ifs at hfirst
      rw [h.length_films]
      exact (Option.some.inj hfirst).symm
    rw [films_of_labels hplacedKept.labels, hstart, Lib.loop_mod, ← hstart] at hout
    have hdrawn : (rt.serveDraws cat from_ (some first) (n + 1) roll nonce ch).1 =
        Lib.loop rt.films rt.rotation (n + 1) := hout
    have hcount : (rt.serveDraws cat from_ (some first) (n + 1) roll nonce ch).1.length =
        n + 1 := by
      rw [hdrawn]
      apply Lib.length_loop
      apply List.ne_nil_of_length_pos
      rw [h.length_films]
      exact Nat.zero_lt_of_lt hlt
    refine ⟨hfilms, hsame, ?_, ?_⟩
    · rw [hcount, hdrawn]
    · have hnext : (rt.serveDraws cat from_ (some first) (n + 1) roll nonce ch).2.1.rotation =
          (first + (n + 1)) % rt.films.length := by
        rw [h.length_films, ← hplacedKept.length_eq]
        exact hrotation
      rw [hcount, hnext, hstart, Nat.mod_mod, Nat.mod_add_mod]

theorem serve_films (h : rt.Films) (hc : ch.isUnconstrained = true) (hperiod : rt.period = none)
    {want : Draw} {nonce : UInt64} {done : ℕ}
    (hserve : rt.serve cat want from_ roll nonce done ch = .ok (out, rt', ch')) :
    rt.Rotated out rt' := by
  rcases serve_cases hserve with ⟨-, rfl, rfl⟩ | ⟨take, -, heq⟩
  · rw [h.firstSeries hc hperiod]
    exact .refl h
  · rw [h.firstSeries hc hperiod] at heq
    cases hfirst : rt.seriesAt rt.rotation with
    | none =>
      have hkept := serve_kept h.inRange hserve
      have hmoved := serve_moved hserve
      have hlimits : rt'.limits = rt.limits := by
        obtain ⟨_, _, _, _, _, _, _, _, heq', -⟩ := hmoved
        rw [heq']
      obtain ⟨hout, hrotation⟩ := serveDraws_none cat rt from_ take roll nonce ch
      rw [hfirst] at heq
      rw [← heq] at hout hrotation
      dsimp only at hout hrotation
      refine ⟨h.of_kept hkept hmoved.cfg_eq hlimits, films_of_labels hkept.labels, ?_, ?_⟩
      · rw [hout]
        rfl
      · rw [hout, hrotation]
        rfl
    | some first =>
      have hrotated := @serveDraws_films cat rt from_ roll ch h hc first hfirst take nonce
      rw [hfirst] at heq
      rw [← heq] at hrotated
      exact hrotated

theorem serveSlots_films {left slot : ℕ} {out out' : List EntryId} (h : rt.Films)
    (hc : ch.isUnconstrained = true) (hperiod : rt.period = none)
    (hserve : serveSlots cat from_ roll left slot out rt ch = .ok (out', rt', ch')) :
    ∃ drawn, out' = out ++ drawn ∧ rt.Rotated drawn rt' := by
  induction left generalizing slot rt ch out with
  | zero =>
    simp only [serveSlots, Except.ok.injEq, Prod.mk.injEq] at hserve
    obtain ⟨rfl, rfl, -⟩ := hserve
    exact ⟨[], (List.append_nil _).symm, .refl h⟩
  | succ left ih =>
    rw [serveSlots] at hserve
    split_ifs at hserve
    · simp only [Except.ok.injEq, Prod.mk.injEq] at hserve
      obtain ⟨rfl, rfl, -⟩ := hserve
      exact ⟨[], (List.append_nil _).symm, .refl h⟩
    · obtain ⟨⟨ids, rt₁, ch₁⟩, hone, hserve⟩ := Lib.bind_eq_ok.mp hserve
      have hrotated := serve_films h hc hperiod hone
      have hchannel : ch₁.isUnconstrained = true := by
        rw [ChannelHistory.isUnconstrained, (serve_grew hone).1]
        exact hc
      have hperiod₁ : rt₁.period = none := by
        obtain ⟨_, _, _, _, _, _, _, _, heq, -⟩ := serve_moved hone
        rw [heq]
        exact hperiod
      obtain ⟨drawn, rfl, hrest⟩ := ih hrotated.films hchannel hperiod₁ hserve
      exact ⟨ids ++ drawn, List.append_assoc _ _ _, hrotated.trans hrest⟩

theorem visit_films (h : rt.Films) (hc : ch.isUnconstrained = true) (hperiod : rt.period = none)
    {take : Take} {done : ℕ}
    (hvisit : rt.visit cat take from_ roll done ch = .ok (out, rt', ch')) :
    rt.Rotated out rt' := by
  have hopen : Films { rt with visitResumable := false } :=
    ⟨h.single, h.inRange, h.select, h.onShort, h.limits⟩
  rcases visit_cases hvisit with ⟨-, rfl, rfl⟩ | ⟨-, rt₁, hslots, rfl⟩ | ⟨-, hserve⟩
  · exact ⟨hopen, rfl, rfl, rfl⟩
  · obtain ⟨drawn, rfl, hrotated⟩ := serveSlots_films hopen hc hperiod hslots
    have hlast := hrotated.films
    exact ⟨⟨hlast.single, hlast.inRange, hlast.select, hlast.onShort, hlast.limits⟩,
      hrotated.same, hrotated.drawn, hrotated.next⟩
  · have hrotated := serve_films hopen hc hperiod hserve
    exact ⟨hrotated.films, hrotated.same, hrotated.drawn, hrotated.next⟩

theorem Visits.rotated {P : TakeFrom → ChannelHistory → Prop}
    (hfree : ∀ f ch, P f ch → ch.isUnconstrained = true) (hvisits : Visits P rt out rt')
    (h : rt.Films) (hspan : rt.cfg.rotate.span? = none) : rt.Rotated out rt' := by
  induction hvisits with
  | nil rt => exact .refl h
  | @cons cat rt rt' rt'' period take from_ roll done ch ch' out out' hperiod hp hvisit _ ih =>
    rw [hspan, Option.isSome_none] at hperiod
    have hnone := Option.isSome_eq_false_iff.mp hperiod
    have hopen : Films { rt with period } :=
      ⟨h.single, h.inRange, h.select, h.onShort, h.limits⟩
    have hrotated := visit_films hopen (hfree _ _ hp) (Option.isNone_iff_eq_none.mp hnone) hvisit
    have hfirst : rt.Rotated out rt' :=
      ⟨hrotated.films, hrotated.same, hrotated.drawn, hrotated.next⟩
    have hcfg := visit_cfg cat hvisit
    have hspan' : rt'.cfg.rotate.span? = none := by
      rw [hcfg]
      exact hspan
    exact hfirst.trans (ih hrotated.films hspan')

/-- A pool of films rotates evenly: whatever the visits take, what they draw is the films round
and round from the opening rotation, so no film comes again before all the others have. -/
theorem visits_rotate {rt rt' : PoolRuntime} {out : List EntryId} (h : rt.Reachable)
    (hsingle : ∀ s ∈ rt.series, s.ids.length = 1) (hselect : rt.cfg.select = .roundRobin)
    (hshort : rt.cfg.onShort = .next) (hlimits : rt.limits.isUnconstrained = true)
    (hspan : rt.cfg.rotate.span? = none)
    (hvisits : Visits (fun _ ch => ch.isUnconstrained = true) rt out rt') :
    out = Lib.loop (rt.series.flatMap (·.ids)) rt.rotation out.length ∧
      ∀ i, ((out.drop i).take rt.series.length).Nodup := by
  have hshelved := h.shelved
  have hfilms : rt.Films := ⟨hsingle, hshelved.inRange, hselect, hshort, hlimits⟩
  have hrotated := hvisits.rotated (fun _ _ hp => hp) hfilms hspan
  refine ⟨hrotated.drawn, fun i => ?_⟩
  rw [hrotated.drawn, ← hfilms.length_films]
  have hnodup : rt.films.Nodup := by
    apply List.nodup_flatMap.mpr
    refine ⟨?_, hshelved.disjoint⟩
    intro s hs
    obtain ⟨x, hx, -⟩ := hfilms.single_eq hs
    rw [hx]
    exact List.nodup_singleton x
  exact Lib.nodup_window hnodup rt.rotation out.length i

/-- Three films, five draws from the opening rotation. -/
theorem visits_rotate_shelf : ∃ (rt rt' : PoolRuntime) (out : List EntryId), out.length = 5 ∧
    rt.series.length = 3 ∧ (out = Lib.loop (rt.series.flatMap (·.ids)) rt.rotation out.length ∧
      ∀ i, ((out.drop i).take rt.series.length).Nodup) ∧ rt'.series.length = 3 := by
  have hshelf := @openShelf_reachable { name := "p" } ["f1", "f2", "f3"]
    fun rt => ((PoolRuntime.visit shelfCatalog { rt with period := none } (.count 5) .start
        ⟨7, 0, 0⟩ 0 {}).toOption.map fun v => (v.1.length, v.2.1.series.length)) == some (5, 3) &&
      (rt.series.map (·.ids.length) == [1, 1, 1] && rt.limits.isUnconstrained)
  obtain ⟨rt, hreach, hcfg, hdrawn⟩ := hshelf (by decide +kernel)
  obtain ⟨hdrawn, hopen⟩ := Bool.and_eq_true_iff.mp hdrawn
  obtain ⟨hlens, hlimits⟩ := Bool.and_eq_true_iff.mp hopen
  have hlens := beq_iff_eq.mp hlens
  have hsingle : ∀ s ∈ rt.series, s.ids.length = 1 := by
    intro s hs
    have hmem := List.mem_map_of_mem (f := fun s : Series => s.ids.length) hs
    rw [hlens] at hmem
    simpa using hmem
  obtain ⟨v, hv, hlen⟩ := Option.map_eq_some_iff.mp (beq_iff_eq.mp hdrawn)
  obtain ⟨hout, hafter⟩ := Prod.mk.inj hlen
  have hseries : rt.series.length = 3 := by
    have hlength := congrArg List.length hlens
    rwa [List.length_map] at hlength
  cases hvisit : PoolRuntime.visit shelfCatalog { rt with period := none } (.count 5) .start
      ⟨7, 0, 0⟩ 0 {} with
  | error e =>
    rw [hvisit] at hv
    cases hv
  | ok visited =>
    rw [hvisit] at hv
    obtain rfl := Option.some.inj hv
    have hspan : rt.cfg.rotate.span? = none := by
      rw [hcfg]
      rfl
    have hperiod : (none : Option (ℤ × ℤ)).isSome = rt.cfg.rotate.span?.isSome := by
      rw [hspan]
      rfl
    have hvisits : Visits (fun _ ch => ch.isUnconstrained = true) rt (visited.1 ++ [])
        visited.2.1 :=
      .cons hperiod rfl hvisit (.nil visited.2.1)
    have hselect : rt.cfg.select = .roundRobin := by
      rw [hcfg]
    have hshort : rt.cfg.onShort = .next := by
      rw [hcfg]
    have hrotate := visits_rotate hreach hsingle hselect hshort hlimits hspan hvisits
    refine ⟨rt, visited.2.1, visited.1 ++ [], ?_, hseries, hrotate, hafter⟩
    rw [List.append_nil, hout]

end Visits

end EtvStation.PoolRuntime
