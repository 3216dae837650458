import EtvStation.Lib.Loop
import EtvStation.Pattern.Reachable

/-! What each series gives over a walk: its items one after the other, round and round, wherever
the visits found it. -/
namespace EtvStation

/-- What series `i` gave, in draw order. -/
def own (draws : List (ℕ × List EntryId)) (i : ℕ) : List EntryId :=
  (draws.filter (·.1 == i)).flatMap Prod.snd

theorem own_append (draws draws' : List (ℕ × List EntryId)) (i : ℕ) :
    own (draws ++ draws') i = own draws i ++ own draws' i := by
  rw [own, List.filter_append, List.flatMap_append]
  rfl

theorem own_single (si : ℕ) (taken : List EntryId) (i : ℕ) :
    own [(si, taken)] i = if si = i then taken else [] := by
  unfold own
  split_ifs with h
  · simp [h]
  · simp [h]

/-- Keeping what one entry gave, entry by entry, is keeping that entry. -/
theorem flatMap_of_one {draws : List (ℕ × List EntryId)} {i : ℕ}
    {f : ℕ × List EntryId → List EntryId}
    (h : ∀ d ∈ draws, f d = if d.1 == i then d.2 else []) :
    draws.flatMap f = (draws.filter (·.1 == i)).flatMap Prod.snd := by
  induction draws with
  | nil => rfl
  | cons d draws ih =>
    have hhead := h d List.mem_cons_self
    have htail := ih fun d' hd' => h d' (List.mem_cons_of_mem _ hd')
    rw [List.flatMap_cons, hhead, htail, List.filter_cons]
    split_ifs with heq
    · exact List.flatMap_cons.symm
    · rfl

/-- The draws took each series round and round from its cursor, and left it after them. -/
structure Cycled (l : List Series) (draws : List (ℕ × List EntryId)) (l' : List Series) : Prop where
  labels : l'.map Series.label = l.map Series.label
  drawn : ∀ i s, l[i]? = some s → own draws i = Lib.loop s.ids s.cursor (own draws i).length
  cursor : ∀ i s s', l[i]? = some s → l'[i]? = some s' →
    s'.cursor = (s.cursor + (own draws i).length) % s.ids.length
  known : ∀ d ∈ draws, d.1 < l.length

namespace Cycled

variable {l l' l'' : List Series} {draws draws' : List (ℕ × List EntryId)}

theorem length_eq (h : Cycled l draws l') : l'.length = l.length := by
  have := congrArg List.length h.labels
  rwa [List.length_map, List.length_map] at this

/-- The series at a place is the same one before and after. -/
theorem same (h : Cycled l draws l') {i : ℕ} {s : Series} (hs : l[i]? = some s) :
    ∃ s', l'[i]? = some s' ∧ s'.ids = s.ids ∧ s'.key = s.key := by
  have hlabel := congrArg (·[i]?) h.labels
  simp only [List.getElem?_map, hs, Option.map_some] at hlabel
  obtain ⟨s', hs', heq⟩ := Option.map_eq_some_iff.mp hlabel
  exact ⟨s', hs', congrArg Prod.snd heq, congrArg Prod.fst heq⟩

theorem trans (h : Cycled l draws l') (h' : Cycled l' draws' l'') :
    Cycled l (draws ++ draws') l'' where
  labels := h'.labels.trans h.labels
  drawn := by
    intro i s hs
    obtain ⟨s', hs', hids, -⟩ := h.same hs
    have hfirst := h.drawn i s hs
    have hrest := h'.drawn i s' hs'
    rw [hids, h.cursor i s s' hs hs', Lib.loop_mod] at hrest
    rw [own_append, List.length_append, Lib.loop_add, ← hfirst, ← hrest]
  cursor := by
    intro i s t hs ht
    obtain ⟨s', hs', hids, -⟩ := h.same hs
    have hrest := h'.cursor i s' t hs' ht
    rw [hids, h.cursor i s s' hs hs', Nat.mod_add_mod] at hrest
    rw [own_append, List.length_append, hrest, Nat.add_assoc]
  known := by
    intro d hd
    rcases List.mem_append.mp hd with hd | hd
    · exact h.known d hd
    · rw [← h.length_eq]
      exact h'.known d hd

/-- The same series, each at the cursor it had: nothing was drawn. -/
theorem of_still (hr : InRange l) (hlabels : l'.map Series.label = l.map Series.label)
    (hcursor : ∀ (i : ℕ) (s s' : Series), l[i]? = some s → l'[i]? = some s' →
      s'.cursor = s.cursor) : Cycled l [] l' where
  labels := hlabels
  drawn := fun _ _ _ => rfl
  cursor := by
    intro i s s' hs hs'
    have hlt := hr s (List.mem_of_getElem? hs)
    rw [hcursor i s s' hs hs']
    exact (Nat.mod_eq_of_lt hlt).symm
  known := fun _ hd => absurd hd List.not_mem_nil

theorem refl (hr : InRange l) : Cycled l [] l :=
  of_still hr rfl fun _ _ _ hs hs' => by rw [hs] at hs'; exact congrArg _ (Option.some.inj hs').symm

/-- A slice off one series from its cursor. -/
theorem slice (hr : InRange l) {si : ℕ} {s : Series} {taken : List EntryId}
    (hs : l[si]? = some s) (htaken : taken = (s.ids.drop s.cursor).take taken.length) :
    Cycled l [(si, taken)] (l.set si (s.advanceTo (s.cursor + taken.length))) := by
  have hlt := hr s (List.mem_of_getElem? hs)
  have hle : s.cursor + taken.length ≤ s.ids.length := by
    have := congrArg List.length htaken
    rw [List.length_take, List.length_drop] at this
    omega
  obtain ⟨hin, -⟩ := List.getElem?_eq_some_iff.mp hs
  constructor
  · exact PoolRuntime.set_label hs rfl
  · intro i t ht
    rw [own_single]
    split_ifs with heq
    · rw [heq, ht] at hs
      obtain rfl := Option.some.inj hs
      rw [Lib.loop_eq_slice hle]
      exact htaken
    · rfl
  · intro i t t' ht ht'
    rw [own_single]
    by_cases heq : si = i
    · rw [if_pos heq]
      rw [heq, ht] at hs
      obtain rfl := Option.some.inj hs
      rw [heq] at hin
      rw [heq, List.getElem?_set_self hin] at ht'
      obtain rfl := Option.some.inj ht'
      simp only [Series.advanceTo]
      split_ifs with hwrap
      · rw [Nat.le_antisymm hle hwrap, Nat.mod_self]
      · rw [Nat.mod_eq_of_lt (Nat.lt_of_not_le hwrap)]
    · rw [if_neg heq]
      rw [List.getElem?_set_ne heq, ht] at ht'
      obtain rfl := Option.some.inj ht'
      exact (Nat.mod_eq_of_lt (hr t (List.mem_of_getElem? ht))).symm
  · intro d hd
    obtain rfl := List.mem_singleton.mp hd
    exact hin

end Cycled

theorem Drew.cycled {l l' : List Series} {draws : List (ℕ × List EntryId)}
    (h : Drew false l draws l') (hr : InRange l) : Cycled l draws l' := by
  induction h with
  | nil => exact .refl hr
  | @cons l l' si c s taken rest hs hc hcursor htaken hne hrest ih =>
    obtain rfl := hcursor rfl
    have hne := List.ne_nil_of_length_pos (Nat.zero_lt_of_lt hc)
    have hslice := Cycled.slice hr hs htaken
    exact hslice.trans (ih (hr.set (Series.advanceTo_cursor_lt hne _)))

namespace Cycled

/-- Where no id stands in two series, what a series gave is what was drawn of its ids. -/
theorem own_eq {l l' : List Series} {draws : List (ℕ × List EntryId)} (h : Cycled l draws l')
    (hs : Shelved l) {i : ℕ} {s : Series} (hi : l[i]? = some s) :
    (draws.flatMap Prod.snd).filter (s.ids.contains ·) = own draws i := by
  have hfrom : ∀ d ∈ draws, ∃ t, l[d.1]? = some t ∧ ∀ x ∈ d.2, x ∈ t.ids := by
    intro d hd
    have hlt := h.known d hd
    refine ⟨_, List.getElem?_eq_getElem hlt, fun x hx => ?_⟩
    have hown : x ∈ own draws d.1 :=
      List.mem_flatMap.mpr ⟨d, List.mem_filter.mpr ⟨hd, beq_self_eq_true _⟩, hx⟩
    rw [h.drawn d.1 _ (List.getElem?_eq_getElem hlt)] at hown
    exact Lib.mem_of_mem_loop hown
  have hpair := List.pairwise_iff_getElem.mp hs.disjoint
  have hother : ∀ d ∈ draws, ∀ x ∈ d.2, x ∈ s.ids → d.1 = i := by
    intro d hd x hx hxs
    obtain ⟨t, ht, hmem⟩ := hfrom d hd
    obtain ⟨hlt, rfl⟩ := List.getElem?_eq_some_iff.mp ht
    obtain ⟨hlt', rfl⟩ := List.getElem?_eq_some_iff.mp hi
    rcases lt_trichotomy d.1 i with hless | heq | hmore
    · exact absurd hxs (hpair _ _ hlt hlt' hless x (hmem x hx))
    · exact heq
    · exact absurd (hmem x hx) (hpair _ _ hlt' hlt hmore x hxs)
  have hone : ∀ d ∈ draws, d.2.filter (s.ids.contains ·) = if d.1 == i then d.2 else [] := by
    intro d hd
    split_ifs with heq
    · obtain ⟨t, ht, hmem⟩ := hfrom d hd
      rw [beq_iff_eq.mp heq, hi] at ht
      obtain rfl := Option.some.inj ht
      exact List.filter_eq_self.mpr fun x hx => List.contains_iff_mem.mpr (hmem x hx)
    · apply List.filter_eq_nil_iff.mpr
      intro x hx hxs
      have heq' := hother d hd x hx (List.contains_iff_mem.mp hxs)
      exact heq (beq_iff_eq.mpr heq')
  unfold own
  rw [List.filter_flatMap]
  exact flatMap_of_one hone

end Cycled

namespace PoolRuntime

variable {cat : Catalog} {rt rt' : PoolRuntime} {roll : RollKey} {ch ch' : ChannelHistory}
  {out : List EntryId}

/-- What a visit drew, series by series. -/
def CycledVisit (rt : PoolRuntime) (out : List EntryId) (rt' : PoolRuntime) : Prop :=
  ∃ draws, Cycled rt.series draws rt'.series ∧ out = draws.flatMap Prod.snd

theorem CycledVisit.trans {a b c : PoolRuntime} {out out' : List EntryId}
    (h : a.CycledVisit out b) (h' : b.CycledVisit out' c) : a.CycledVisit (out ++ out') c := by
  obtain ⟨draws, hc, rfl⟩ := h
  obtain ⟨draws', hc', rfl⟩ := h'
  exact ⟨draws ++ draws', hc.trans hc', (List.flatMap_append).symm⟩

theorem serveDraws_cycled (hr : InRange rt.series) {first : Option ℕ}
    (hfirst : ∀ si, first = some si → si < rt.series.length) (take : ℕ) (nonce : UInt64) :
    rt.CycledVisit (rt.serveDraws cat .start first take roll nonce ch).1
      (rt.serveDraws cat .start first take roll nonce ch).2.1 := by
  cases take with
  | succ n =>
    have hvisited := serveDraws_visited cat .start roll nonce ch hr hfirst (Nat.succ_pos n)
    obtain ⟨draws, hdrew, hout⟩ := hvisited.drew
    exact ⟨draws, hdrew.cycled hr, hout⟩
  | zero =>
    obtain ⟨hout, hseries⟩ := serveDraws_zero cat rt .start first roll nonce ch
    refine ⟨[], ?_, hout⟩
    rw [hseries]
    cases first with
    | none => exact .refl hr
    | some si =>
      have hs := exists_getElem? (hfirst si rfl)
      have hlt := hr _ (List.mem_of_getElem? hs)
      dsimp only [placeCursor]
      rw [takeFrom_series hs, Nat.zero_min, Nat.add_zero]
      have hlabels : (rt.series.set si ((rt.nth si).advanceTo (rt.nth si).cursor)).map
          Series.label = rt.series.map Series.label := set_label hs rfl
      apply Cycled.of_still hr hlabels
      intro i t t' ht ht'
      by_cases heq : si = i
      · rw [← heq, List.getElem?_set_self (hfirst si rfl)] at ht'
        rw [← heq, hs] at ht
        obtain rfl := Option.some.inj ht'
        obtain rfl := Option.some.inj ht
        simp only [Series.advanceTo, Nat.not_le.mpr hlt, if_false]
      · rw [List.getElem?_set_ne heq, ht] at ht'
        exact congrArg _ (Option.some.inj ht').symm

theorem serve_cycled (hr : InRange rt.series) {want : Draw} {nonce : UInt64} {done : ℕ}
    (h : rt.serve cat want .start roll nonce done ch = .ok (out, rt', ch')) :
    rt.CycledVisit out rt' := by
  have hsame := (rt.firstSeries_chose roll nonce ch).series_eq
  rcases serve_cases h with ⟨-, rfl, rfl⟩ | ⟨take, -, heq⟩
  · refine ⟨[], ?_, rfl⟩
    rw [hsame]
    exact .refl hr
  · have hlt : ∀ si, (rt.firstSeries roll nonce ch).1 = some si →
        si < (rt.firstSeries roll nonce ch).2.1.series.length := by
      rw [hsame]
      exact fun _ => firstSeries_lt
    have hcycled := @serveDraws_cycled cat _ roll (rt.firstSeries roll nonce ch).2.2
      (hsame.symm ▸ hr) _ hlt take nonce
    rw [← heq] at hcycled
    obtain ⟨draws, hc, hout⟩ := hcycled
    rw [hsame] at hc
    exact ⟨draws, hc, hout⟩

theorem serveSlots_cycled {left slot : ℕ} {out out' : List EntryId} (hr : InRange rt.series)
    (h : serveSlots cat .start roll left slot out rt ch = .ok (out', rt', ch')) :
    ∃ drawn, out' = out ++ drawn ∧ rt.CycledVisit drawn rt' := by
  induction left generalizing slot rt ch out with
  | zero =>
    simp only [serveSlots, Except.ok.injEq, Prod.mk.injEq] at h
    obtain ⟨rfl, rfl, -⟩ := h
    exact ⟨[], (List.append_nil _).symm, [], .refl hr, rfl⟩
  | succ left ih =>
    rw [serveSlots] at h
    split_ifs at h
    · simp only [Except.ok.injEq, Prod.mk.injEq] at h
      obtain ⟨rfl, rfl, -⟩ := h
      exact ⟨[], (List.append_nil _).symm, [], .refl hr, rfl⟩
    · obtain ⟨⟨ids, rt₁, ch₁⟩, hone, h⟩ := Lib.bind_eq_ok.mp h
      have hkept := serve_kept hr hone
      obtain ⟨drawn, rfl, hrest⟩ := ih hkept.inRange h
      exact ⟨ids ++ drawn, List.append_assoc _ _ _, (serve_cycled hr hone).trans hrest⟩

theorem visit_cycled (hr : InRange rt.series) {take : Take} {done : ℕ}
    (h : rt.visit cat take .start roll done ch = .ok (out, rt', ch')) :
    rt.CycledVisit out rt' := by
  have hopen : InRange { rt with visitResumable := false }.series := hr
  rcases visit_cases h with ⟨-, rfl, rfl⟩ | ⟨-, rt₁, hslots, rfl⟩ | ⟨-, hserve⟩
  · exact ⟨[], .refl hr, rfl⟩
  · obtain ⟨drawn, rfl, hcycled⟩ := serveSlots_cycled hopen hslots
    exact hcycled
  · have hcycled := serve_cycled hopen hserve
    exact hcycled

theorem Visits.cycled {P : TakeFrom → ChannelHistory → Prop} (hstart : ∀ f ch, P f ch → f = .start)
    (h : Visits P rt out rt') (hr : InRange rt.series) : rt.CycledVisit out rt' := by
  induction h with
  | nil rt => exact ⟨[], .refl hr, rfl⟩
  | @cons cat rt rt' rt'' period take from_ roll done ch ch' out out' _ hp hvisit _ ih =>
    obtain rfl := hstart _ _ hp
    have hopen : InRange { rt with period }.series := hr
    have hcycled := visit_cycled hopen hvisit
    have hfirst : rt.CycledVisit out rt' := hcycled
    exact hfirst.trans (ih (visit_kept hopen hvisit).inRange)

/-- No series skips or replays an item: over visits drawn from their series' start, what each
series gave is its own list read on, round and round, from its opening cursor, and its cursor
stands after it. -/
theorem visits_cyclic {rt rt' : PoolRuntime} {out : List EntryId} (h : rt.Reachable)
    (hvisits : Visits (fun from_ _ => from_ = .start) rt out rt') :
    ∀ s ∈ rt.series, out.filter (s.ids.contains ·) =
        Lib.loop s.ids s.cursor (out.countP (s.ids.contains ·)) ∧
      ∃ s' ∈ rt'.series, s'.key = s.key ∧ s'.ids = s.ids ∧
        s'.cursor = (s.cursor + out.countP (s.ids.contains ·)) % s.ids.length := by
  have hshelved := h.shelved
  obtain ⟨draws, hcycled, rfl⟩ := hvisits.cycled (fun _ _ hp => hp) hshelved.inRange
  intro s hs
  obtain ⟨i, hi⟩ := List.mem_iff_getElem?.mp hs
  have hown := hcycled.own_eq hshelved hi
  obtain ⟨s', hs', hids, hkey⟩ := hcycled.same hi
  rw [List.countP_eq_length_filter, hown]
  exact ⟨hcycled.drawn i s hi, s', List.mem_of_getElem? hs', hkey, hids,
    hcycled.cursor i s s' hi hs'⟩

/-- Four items of a pool of two shows, each show's read on from its opening cursor. -/
theorem visits_cyclic_shelf : ∃ (rt rt' : PoolRuntime) (out : List EntryId), out.length = 4 ∧
    ∀ s ∈ rt.series, out.filter (s.ids.contains ·) =
        Lib.loop s.ids s.cursor (out.countP (s.ids.contains ·)) ∧
      ∃ s' ∈ rt'.series, s'.key = s.key ∧ s'.ids = s.ids ∧
        s'.cursor = (s.cursor + out.countP (s.ids.contains ·)) % s.ids.length := by
  have hshelf := @openShelf_reachable { name := "p" } ["a1", "b1", "a2", "b2", "b3"]
    fun rt => ((PoolRuntime.visit shelfCatalog { rt with period := none } (.count 4) .start
      ⟨7, 0, 0⟩ 0 {}).toOption.map fun v => v.1.length) == some 4
  obtain ⟨rt, hreach, hcfg, hdrawn⟩ := hshelf (by decide +kernel)
  obtain ⟨v, hv, hlen⟩ := Option.map_eq_some_iff.mp (beq_iff_eq.mp hdrawn)
  have hspan : (none : Option (ℤ × ℤ)).isSome = rt.cfg.rotate.span?.isSome := by
    rw [hcfg]
    rfl
  cases hvisit : PoolRuntime.visit shelfCatalog { rt with period := none } (.count 4) .start
      ⟨7, 0, 0⟩ 0 {} with
  | error e =>
    rw [hvisit] at hv
    cases hv
  | ok visited =>
    rw [hvisit] at hv
    obtain rfl := Option.some.inj hv
    have hvisits : Visits (fun from_ _ => from_ = .start) rt (visited.1 ++ []) visited.2.1 :=
      .cons hspan rfl hvisit (.nil visited.2.1)
    refine ⟨rt, visited.2.1, visited.1 ++ [], ?_, visits_cyclic hreach hvisits⟩
    rw [List.append_nil, hlen]

end PoolRuntime

end EtvStation
