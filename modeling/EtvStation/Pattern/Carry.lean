import EtvStation.Pattern.Cyclic

/-! A rollover in the middle of a walk: where each series of the new list goes on from. -/
namespace EtvStation

/-- The last item a series aired, of a walk's items each filed under its series. -/
def lastOf (aired : List (String × EntryId)) (key : String) : Option EntryId :=
  (aired.filter fun e => e.1 = key).getLast?.map Prod.snd

/-- What the draws did to each series: left it alone, or left it after the last item they took, or
at its top. -/
structure Stood (l : List Series) (draws : List (ℕ × List EntryId)) (l' : List Series) : Prop where
  length_eq : l'.length = l.length
  known : ∀ d ∈ draws, ∃ s, l[d.1]? = some s ∧ ∀ x ∈ d.2, x ∈ s.ids
  stood : ∀ i s, l[i]? = some s → ∃ s', l'[i]? = some s' ∧
    (s'.key = s.key ∧ s'.showKey = s.showKey ∧ s'.ids = s.ids) ∧
    if own draws i = [] then s'.cursor = s.cursor
    else s'.cursor = 0 ∨ s'.ids[s'.cursor - 1]? = (own draws i).getLast?

namespace Stood

variable {l l' l'' : List Series} {draws draws' : List (ℕ × List EntryId)}

theorem refl (l : List Series) : Stood l [] l where
  length_eq := rfl
  known d hd := by cases hd
  stood i s hs := ⟨s, hs, ⟨rfl, rfl, rfl⟩, rfl⟩

theorem trans (h : Stood l draws l') (h' : Stood l' draws' l'') :
    Stood l (draws ++ draws') l'' where
  length_eq := h'.length_eq.trans h.length_eq
  known d hd := by
    rcases List.mem_append.mp hd with hd | hd
    · exact h.known d hd
    · obtain ⟨s', hs', hmem⟩ := h'.known d hd
      have hlt : d.1 < l.length := by
        rw [← h.length_eq]
        exact (List.getElem?_eq_some_iff.mp hs').1
      obtain ⟨t, ht, ⟨-, -, hids⟩, -⟩ := h.stood d.1 l[d.1] (List.getElem?_eq_getElem hlt)
      obtain rfl := Option.some.inj (ht.symm.trans hs')
      exact ⟨_, List.getElem?_eq_getElem hlt, hids ▸ hmem⟩
  stood i s hs := by
    obtain ⟨s', hs', ⟨hkey, hshow, hids⟩, hone⟩ := h.stood i s hs
    obtain ⟨s'', hs'', ⟨hkey', hshow', hids'⟩, htwo⟩ := h'.stood i s' hs'
    refine ⟨s'', hs'', ⟨hkey'.trans hkey, hshow'.trans hshow, hids'.trans hids⟩, ?_⟩
    rw [own_append]
    by_cases hlast : own draws' i = []
    · rw [if_pos hlast] at htwo
      rw [hlast, List.append_nil, htwo, hids']
      exact hone
    · rw [if_neg hlast] at htwo
      rw [if_neg (List.append_ne_nil_of_right_ne_nil _ hlast),
        List.getLast?_append_of_ne_nil _ hlast]
      exact htwo

theorem single {si c : ℕ} {s : Series} {taken : List EntryId} (hs : l[si]? = some s)
    (hc : c < s.ids.length) (htaken : taken = (s.ids.drop c).take taken.length)
    (hne : taken ≠ []) : Stood l [(si, taken)] (l.set si (s.advanceTo (c + taken.length))) where
  length_eq := List.length_set
  known d hd := by
    obtain rfl := List.mem_singleton.mp hd
    refine ⟨s, hs, fun x hx => ?_⟩
    rw [htaken] at hx
    exact List.mem_of_mem_drop (List.mem_of_mem_take hx)
  stood i t ht := by
    have hlt := (List.getElem?_eq_some_iff.mp hs).1
    rw [own_single]
    by_cases hi : si = i
    · subst hi
      obtain rfl := Option.some.inj (hs.symm.trans ht)
      refine ⟨_, List.getElem?_set_self hlt, ⟨rfl, rfl, rfl⟩, ?_⟩
      rw [if_pos rfl, if_neg hne]
      by_cases hwrap : s.ids.length ≤ c + taken.length
      · left
        rw [Series.advanceTo, if_pos hwrap]
      · right
        have hpos := List.length_pos_iff.mpr hne
        have hcursor : (s.advanceTo (c + taken.length)).cursor = c + taken.length := if_neg hwrap
        rw [hcursor, List.getLast?_eq_getElem?]
        have hlast : taken[taken.length - 1]? = s.ids[c + taken.length - 1]? := by
          conv_lhs => rw [htaken]
          rw [List.getElem?_take, List.length_take, List.length_drop, if_pos (by omega),
            List.getElem?_drop]
          congr 1
          omega
        exact hlast.symm
    · refine ⟨t, ?_, ⟨rfl, rfl, rfl⟩, ?_⟩
      · rw [List.getElem?_set_ne hi, ht]
      · rw [if_neg hi]
        rfl

end Stood

theorem Drew.stood {placed : Bool} {l l' : List Series} {draws : List (ℕ × List EntryId)}
    (h : Drew placed l draws l') : Stood l draws l' := by
  induction h with
  | nil => exact .refl _
  | cons hs hc _ htaken hne _ ih => exact (Stood.single hs hc htaken hne).trans ih

namespace PoolRuntime

variable {cat : Catalog} {rt rt' : PoolRuntime} {from_ : TakeFrom} {roll : RollKey}
  {ch ch' : ChannelHistory} {out : List EntryId}

/-- What a visit drew, and where it left each series. -/
def StoodVisit (rt : PoolRuntime) (out : List EntryId) (rt' : PoolRuntime) : Prop :=
  ∃ draws, Stood rt.series draws rt'.series ∧ out = draws.flatMap Prod.snd

theorem StoodVisit.refl (rt : PoolRuntime) : rt.StoodVisit [] rt := ⟨[], .refl _, rfl⟩

theorem StoodVisit.trans {a b c : PoolRuntime} {out out' : List EntryId}
    (h : a.StoodVisit out b) (h' : b.StoodVisit out' c) : a.StoodVisit (out ++ out') c := by
  obtain ⟨draws, hs, rfl⟩ := h
  obtain ⟨draws', hs', rfl⟩ := h'
  exact ⟨draws ++ draws', hs.trans hs', (List.flatMap_append).symm⟩

theorem Visited.stoodVisit {placed : Bool} (h : Visited placed rt out rt') :
    rt.StoodVisit out rt' := by
  obtain ⟨draws, hdrew, hout⟩ := h.drew
  exact ⟨draws, hdrew.stood, hout⟩

/-- Asked for nothing, a visit from the series' start leaves every cursor where it was. -/
theorem serveDraws_stood (hr : InRange rt.series) {first : Option ℕ}
    (hfirst : ∀ si, first = some si → si < rt.series.length) {take : ℕ}
    (htake : from_ = .start ∨ 0 < take) (nonce : UInt64) :
    rt.StoodVisit (rt.serveDraws cat from_ first take roll nonce ch).1
      (rt.serveDraws cat from_ first take roll nonce ch).2.1 := by
  by_cases hpos : 0 < take
  · exact (serveDraws_visited cat from_ roll nonce ch hr hfirst hpos).stoodVisit
  · obtain rfl : from_ = .start := htake.resolve_right hpos
    obtain rfl : take = 0 := Nat.eq_zero_of_not_pos hpos
    obtain ⟨hout, hseries⟩ := serveDraws_zero cat rt .start first roll nonce ch
    refine ⟨[], ?_, hout⟩
    rw [hseries]
    cases first with
    | none => exact .refl _
    | some si =>
      have hs := exists_getElem? (hfirst si rfl)
      have hlt := hr _ (List.mem_of_getElem? hs)
      dsimp only [placeCursor]
      rw [takeFrom_series hs, Nat.zero_min, Nat.add_zero]
      refine ⟨List.length_set, fun d hd => absurd hd List.not_mem_nil, fun i t ht => ?_⟩
      by_cases hi : si = i
      · subst hi
        obtain rfl := Option.some.inj (hs.symm.trans ht)
        refine ⟨_, List.getElem?_set_self (hfirst si rfl), ⟨rfl, rfl, rfl⟩, ?_⟩
        exact if_neg (Nat.not_le.mpr hlt)
      · exact ⟨t, by rw [List.getElem?_set_ne hi, ht], ⟨rfl, rfl, rfl⟩, rfl⟩

theorem serve_stood (hr : InRange rt.series) {want : Draw} {nonce : UInt64} {done : ℕ}
    (hwants : from_ = .start ∨ rt.Wants want done)
    (h : rt.serve cat want from_ roll nonce done ch = .ok (out, rt', ch')) :
    rt.StoodVisit out rt' := by
  rcases hwants with hstart | hwants
  · have hsame := (rt.firstSeries_chose roll nonce ch).series_eq
    rcases serve_cases h with ⟨-, rfl, rfl⟩ | ⟨take, -, heq⟩
    · refine ⟨[], ?_, rfl⟩
      rw [hsame]
      exact .refl _
    · have hlt : ∀ si, (rt.firstSeries roll nonce ch).1 = some si →
          si < (rt.firstSeries roll nonce ch).2.1.series.length := by
        rw [hsame]
        exact fun _ => firstSeries_lt
      have hstood := @serveDraws_stood cat _ from_ roll (rt.firstSeries roll nonce ch).2.2
        (hsame.symm ▸ hr) _ hlt take (Or.inl hstart) nonce
      rw [← heq] at hstood
      obtain ⟨draws, hs, hout⟩ := hstood
      rw [hsame] at hs
      exact ⟨draws, hs, hout⟩
  · exact (serve_visited cat hr hwants h).stoodVisit

theorem serveSlots_stood {left slot : ℕ} {out out' : List EntryId} (hr : InRange rt.series)
    (hslot : rt.cfg.rotate = .slot)
    (h : serveSlots cat from_ roll left slot out rt ch = .ok (out', rt', ch')) :
    ∃ drawn, out' = out ++ drawn ∧ rt.StoodVisit drawn rt' := by
  obtain ⟨drawn, hout, hvisited⟩ := serveSlots_visited cat left slot hr hslot h
  exact ⟨drawn, hout, hvisited.stoodVisit⟩

/-- A visit that opens on its series' start, or that still has something to draw. -/
theorem visit_stood (hr : InRange rt.series) {take : Take} {done : ℕ}
    (hwants : from_ = .start ∨ rt.WantsVisit take roll done)
    (h : rt.visit cat take from_ roll done ch = .ok (out, rt', ch')) :
    rt.StoodVisit out rt' := by
  have hopen : InRange { rt with visitResumable := false }.series := hr
  rcases hwants with hstart | hwants
  · rcases visit_cases h with ⟨-, rfl, rfl⟩ | ⟨hslot, rt₁, hslots, rfl⟩ | ⟨-, hserve⟩
    · exact .refl _
    · obtain ⟨drawn, rfl, hstood⟩ := serveSlots_stood hopen hslot hslots
      exact hstood
    · have hstood := serve_stood hopen (Or.inl hstart) hserve
      exact hstood
  · exact (visit_visited cat hr hwants h).stoodVisit

end PoolRuntime

namespace PoolRuntime

/-- What a visit drew, each item filed under the series it was drawn from. -/
def filed (rt : PoolRuntime) (out : List EntryId) : List (String × EntryId) :=
  out.filterMap fun x => (rt.series.find? fun s => s.ids.contains x).map fun s => (s.key, x)

end PoolRuntime

section Filing

variable {rt : PoolRuntime} {l' : List Series} {draws : List (ℕ × List EntryId)}

theorem Shelved.eq_of_key {series : List Series} (h : Shelved series) {s t : Series}
    (hs : s ∈ series) (ht : t ∈ series) (hkey : s.key = t.key) : s = t :=
  List.inj_on_of_nodup_map h.keys_nodup hs ht hkey

theorem Shelved.find_series {series : List Series} (h : Shelved series) {s : Series}
    (hs : s ∈ series) {x : EntryId} (hx : x ∈ s.ids) :
    (series.find? fun t => t.ids.contains x) = some s := by
  cases hfind : series.find? fun t => t.ids.contains x with
  | none => exact absurd (List.contains_iff_mem.mpr hx) (List.find?_eq_none.mp hfind s hs)
  | some t =>
    have ht := List.mem_of_find?_eq_some hfind
    have hcontains := List.find?_some hfind
    have hx' := List.contains_iff_mem.mp hcontains
    by_contra hne
    have : Std.Symm fun s t : Series => ∀ x ∈ s.ids, x ∉ t.ids :=
      ⟨fun _ _ hst y hy hy' => hst y hy' hy⟩
    exact h.disjoint.forall ht hs (fun heq => hne (congrArg some heq)) x hx' hx

/-- Of what a visit drew, a series' own is what is filed under its key. -/
theorem filed_own (h : Shelved rt.series) (hdraws : Stood rt.series draws l') {i : ℕ} {s : Series}
    (hi : rt.series[i]? = some s) :
    ((rt.filed (draws.flatMap Prod.snd)).filter fun e => e.1 = s.key).map Prod.snd =
      own draws i := by
  have hknown := hdraws.known
  clear hdraws
  induction draws with
  | nil => rfl
  | cons d draws ih =>
    obtain ⟨j, taken⟩ := d
    obtain ⟨t, ht, hmem⟩ := hknown (j, taken) List.mem_cons_self
    have hone : rt.filed taken = taken.map fun x => (t.key, x) := by
      unfold PoolRuntime.filed
      rw [← List.filterMap_eq_map]
      refine List.filterMap_congr fun x hx => ?_
      rw [h.find_series (List.mem_of_getElem? ht) (hmem x hx)]
      rfl
    have hrest := ih fun d hd => hknown d (List.mem_cons_of_mem _ hd)
    have hsplit : rt.filed (taken ++ draws.flatMap Prod.snd) =
        rt.filed taken ++ rt.filed (draws.flatMap Prod.snd) := List.filterMap_append
    rw [List.flatMap_cons, hsplit, List.filter_append, List.map_append, hrest, hone]
    have hcons : own ((j, taken) :: draws) i = own [(j, taken)] i ++ own draws i :=
      own_append [(j, taken)] draws i
    rw [hcons, own_single]
    congr 1
    by_cases hij : j = i
    · rw [if_pos hij]
      have hts : t = s := Option.some.inj (ht.symm.trans (hij ▸ hi))
      rw [hts, List.filter_eq_self.mpr, List.map_map]
      · exact List.map_id _
      · intro e he
        obtain ⟨x, -, rfl⟩ := List.mem_map.mp he
        exact decide_eq_true rfl
    · rw [if_neg hij, List.map_eq_nil_iff, List.filter_eq_nil_iff]
      intro e he hkey
      obtain ⟨x, -, rfl⟩ := List.mem_map.mp he
      have hts := h.eq_of_key (List.mem_of_getElem? ht) (List.mem_of_getElem? hi)
        (of_decide_eq_true hkey)
      rw [hts] at ht
      have hkeys : (rt.series.map (·.key))[j]? = (rt.series.map (·.key))[i]? := by
        rw [List.getElem?_map, List.getElem?_map, ht, hi]
      have hlt : j < (rt.series.map (·.key)).length := by
        rw [List.length_map]
        exact (List.getElem?_eq_some_iff.mp ht).1
      exact hij ((List.getElem?_inj hlt h.keys_nodup).mp hkeys)

theorem lastOf_append (aired more : List (String × EntryId)) (key : String) :
    lastOf (aired ++ more) key =
      (((more.filter fun e => e.1 = key).map Prod.snd).getLast?).or (lastOf aired key) := by
  unfold lastOf
  rw [List.filter_append, List.getLast?_append, List.getLast?_map]
  cases (more.filter fun e => e.1 = key).getLast? with
  | none => rfl
  | some e => rfl

end Filing

/-- What the ledger names for a series at the start of a generation; a pool that restarts does not
ask it. -/
def GenerationState.ledgerFor (state : GenerationState) (cfg : Pool) : String → Option EntryId :=
  match cfg.advance with
  | .resume => state.cursorFor cfg
  | .restart => fun _ => none

/-- A pool part-way through the walk of one generation, and what the walk drew from it so far, each
item filed under its series. The lists of a walk agree on the show a key stands for. -/
inductive Walked (state : GenerationState) (cfg : Pool) :
    PoolRuntime → List (String × EntryId) → Prop
  | opened {cat : Catalog} {v : Variety} {ids : List EntryId} {block : Option Constraints}
      {prev : Option PoolResume} {dice : Dice} {want : Bool}
      {extras : HashMap (String × EntryId) (Option ℕ)} {rt : PoolRuntime}
      (h : poolRuntime cat v cfg ids block state prev dice want extras = .ok rt) :
      Walked state cfg rt []
  | entered {rt : PoolRuntime} {aired : List (String × EntryId)} (h : Walked state cfg rt aired)
      (period : Option (ℤ × ℤ)) : Walked state cfg { rt with period } aired
  | visited {cat : Catalog} {rt rt' : PoolRuntime} {aired : List (String × EntryId)} {take : Take}
      {from_ : TakeFrom} {roll : RollKey} {done : ℕ} {ch ch' : ChannelHistory}
      {out : List EntryId} (h : Walked state cfg rt aired)
      (hwants : from_ = .start ∨ rt.WantsVisit take roll done)
      (hvisit : rt.visit cat take from_ roll done ch = .ok (out, rt', ch')) :
      Walked state cfg rt' (aired ++ rt.filed out)
  | replenished {w : Walk} {rt rt' : PoolRuntime} {aired : List (String × EntryId)} {dice : Dice}
      {src src' : SourceState} (h : Walked state cfg rt aired)
      (hrefill : w.replenished cfg rt dice src = .ok (rt', src')) : Walked state cfg rt' aired
  | rolled {w : Walk} {rt rt' : PoolRuntime} {aired : List (String × EntryId)} {dice : Dice}
      {src src' : SourceState} {out : List EntryId} (h : Walked state cfg rt aired)
      (hstate : w.state = state) (hroll : w.rolled cfg rt dice src out = .ok (rt', src'))
      (hshow : ∀ t ∈ rt.series, ∀ s ∈ rt'.series, t.key = s.key → t.showKey = s.showKey) :
      Walked state cfg rt' aired

/-- A series not at its top stands after the last item the walk aired of it, or after the one the
ledger names. -/
def Series.Placed (cursor : String → Option EntryId) (aired : List (String × EntryId))
    (s : Series) : Prop :=
  0 < s.cursor → ∃ x, s.ids[s.cursor - 1]? = some x ∧
    (lastOf aired s.key = some x ∨ cursor s.showKey = some x)

section Carrying

variable {cat : Catalog} {v : Variety} {cfg : Pool} {ids : List EntryId}
  {block : Option Constraints} {state : GenerationState} {prev : Option PoolResume} {dice : Dice}
  {want : Bool} {extras : HashMap (String × EntryId) (Option ℕ)} {rt rt' : PoolRuntime}
  {aired : List (String × EntryId)}

theorem Series.seat_none (s : Series) : s.seat (fun _ => none) = s := rfl

theorem Series.seat_showKey (s : Series) (cursor : String → Option EntryId) :
    (s.seat cursor).showKey = s.showKey := by
  unfold Series.seat
  split
  · rfl
  · rfl

theorem Series.seat_ids (s : Series) (cursor : String → Option EntryId) :
    (s.seat cursor).ids = s.ids := by
  unfold Series.seat
  split
  · rfl
  · rfl

/-- Where a series that has drawn nothing is seated. -/
theorem Series.seat_cursor {s : Series} (h : s.cursor = 0) (cursor : String → Option EntryId) :
    (s.seat cursor).cursor =
      match (cursor s.showKey).bind fun last => s.ids.idxOf? last with
      | some pos => (pos + 1) % s.ids.length
      | none => 0 := by
  unfold Series.seat
  cases hpos : (cursor s.showKey).bind fun last => s.ids.idxOf? last with
  | none => exact h
  | some pos =>
    obtain ⟨last, -, hidx⟩ := Option.bind_eq_some_iff.mp hpos
    obtain ⟨hlt, -⟩ := List.idxOf?_eq_some_iff.mp hidx
    dsimp only [Series.advanceTo]
    split_ifs with hwrap
    · have : pos + 1 = s.ids.length := by omega
      rw [this, Nat.mod_self]
    · rw [Nat.mod_eq_of_lt (by omega)]

theorem resumeFrom_seats (rt : PoolRuntime) (state : GenerationState) (prev : Option PoolResume) :
    (rt.resumeFrom (state.cursorFor rt.cfg) prev).series =
      rt.series.map (Series.seat (state.ledgerFor rt.cfg)) := by
  have hcontinue : ∀ (rt : PoolRuntime) (p : PoolResume),
      (rt.continueFrom p).series = rt.series := by
    intro rt p
    unfold PoolRuntime.continueFrom
    dsimp only
    split <;> split_ifs <;> rfl
  unfold PoolRuntime.resumeFrom GenerationState.ledgerFor
  cases hadvance : rt.cfg.advance with
  | restart =>
    refine (List.map_id' rt.series).symm.trans (List.map_congr_left fun s _ => ?_)
    exact (Series.seat_none s).symm
  | resume =>
    cases prev with
    | none => rfl
    | some p =>
      dsimp only
      split_ifs
      · rfl
      · rw [hcontinue]

/-- A pool opens with each of its series where the ledger seats it. -/
theorem poolRuntime_seated
    (h : poolRuntime cat v cfg ids block state prev dice want extras = .ok rt) :
    ∀ s ∈ rt.series, ∃ s₀ : Series, s₀.cursor = 0 ∧ s = s₀.seat (state.ledgerFor cfg) := by
  unfold poolRuntime at h
  obtain ⟨resolved, hresolved, h⟩ := Lib.bind_eq_ok.mp h
  obtain ⟨titles, -, h⟩ := Lib.bind_eq_ok.mp h
  obtain ⟨cols, kept, hgrouped, -⟩ := resolvePoolSeries_grouped hresolved
  have hopened : ∀ {r : PoolRuntime} {seam : List EntryId}, r.series = resolved.series →
      r.cfg = cfg → (r.remember seam).resumeFrom (state.cursorFor cfg) prev = rt →
      ∀ s ∈ rt.series, ∃ s₀ : Series, s₀.cursor = 0 ∧ s = s₀.seat (state.ledgerFor cfg) := by
    intro r seam hr hcfg heq s hs
    have hsame : (r.remember seam).cfg = cfg := by
      rw [← hcfg]
      unfold PoolRuntime.remember
      split_ifs <;> rfl
    have hseats := resumeFrom_seats (r.remember seam) state prev
    rw [hsame, heq, PoolRuntime.remember_series, hr] at hseats
    rw [hseats] at hs
    obtain ⟨s₀, hs₀, rfl⟩ := List.mem_map.mp hs
    exact ⟨s₀, (hgrouped.unplayed s₀ hs₀).1, rfl⟩
  dsimp only at h
  split_ifs at h
  · exact hopened rfl rfl (Except.ok.inj h)
  · exact hopened rfl rfl (Except.ok.inj h)

theorem Series.seat_placed {s : Series} (h : s.cursor = 0) (cursor : String → Option EntryId)
    (aired : List (String × EntryId)) : (s.seat cursor).Placed cursor aired := by
  intro hpos
  rw [Series.seat_showKey]
  unfold Series.seat at hpos ⊢
  cases hlast : (cursor s.showKey).bind fun last => s.ids.idxOf? last with
  | none =>
    rw [hlast] at hpos
    exact absurd h hpos.ne'
  | some pos =>
    rw [hlast] at hpos
    obtain ⟨last, hcursor, hidx⟩ := Option.bind_eq_some_iff.mp hlast
    obtain ⟨hlt, hget, -⟩ := List.idxOf?_eq_some_iff.mp hidx
    refine ⟨last, ?_, Or.inr hcursor⟩
    dsimp only [Series.advanceTo] at hpos ⊢
    split_ifs at hpos ⊢ with hwrap
    · exact absurd hpos (lt_irrefl 0)
    · rw [Nat.add_sub_cancel, List.getElem?_eq_getElem hlt]
      simpa using hget

/-- What a live cursor tells of a series: the item before it. -/
theorem lastAired_eq (h : Shelved rt.series) {t : Series} (ht : t ∈ rt.series) :
    rt.lastAired t.key = if 0 < t.cursor then t.ids[t.cursor - 1]? else none := by
  unfold PoolRuntime.lastAired
  split_ifs with hpos
  · have hfind : ((rt.series.filter fun s => s.cursor > 0).find? fun s => s.key == t.key) =
        some t := by
      cases hfind : (rt.series.filter fun s => s.cursor > 0).find? fun s => s.key == t.key with
      | none =>
        have hmem : t ∈ rt.series.filter fun s => s.cursor > 0 :=
          List.mem_filter.mpr ⟨ht, decide_eq_true hpos⟩
        exact absurd (beq_self_eq_true t.key) (List.find?_eq_none.mp hfind t hmem)
      | some s =>
        have hs := List.mem_of_find?_eq_some hfind
        have hkey := List.find?_some hfind
        rw [h.eq_of_key (List.mem_of_mem_filter hs) ht (eq_of_beq hkey)]
    rw [hfind]
    rfl
  · have hfind : ((rt.series.filter fun s => s.cursor > 0).find? fun s => s.key == t.key) =
        none := by
      rw [List.find?_eq_none]
      intro s hs hkey
      obtain ⟨hmem, hcursor⟩ := List.mem_filter.mp hs
      rw [h.eq_of_key hmem ht (eq_of_beq hkey)] at hcursor
      exact hpos (of_decide_eq_true hcursor)
    rw [hfind]
    rfl

theorem carriedSeries_frame (old : PoolRuntime) (s : Series) :
    (old.carriedSeries s).key = s.key ∧ (old.carriedSeries s).showKey = s.showKey ∧
      (old.carriedSeries s).ids = s.ids := by
  unfold PoolRuntime.carriedSeries
  dsimp only
  split
  · exact ⟨rfl, rfl, rfl⟩
  · exact ⟨rfl, rfl, rfl⟩

theorem carriedSeries_cursor (old : PoolRuntime) (s : Series) :
    (old.carriedSeries s).cursor =
      match (old.lastAired s.key).bind fun last => s.ids.idxOf? last with
      | some pos => (pos + 1) % s.ids.length
      | none => s.cursor := by
  unfold PoolRuntime.carriedSeries
  dsimp only
  cases (old.lastAired s.key).bind fun last => s.ids.idxOf? last with
  | some pos => rfl
  | none => rfl

theorem lastAired_none {key : String} (h : key ∉ rt.series.map (·.key)) :
    rt.lastAired key = none := by
  unfold PoolRuntime.lastAired
  have hfind : ((rt.series.filter fun s => s.cursor > 0).find? fun s => s.key == key) = none := by
    rw [List.find?_eq_none]
    intro s hs hkey
    exact h (List.mem_map.mpr ⟨s, List.mem_of_mem_filter hs, eq_of_beq hkey⟩)
  rw [hfind]
  rfl

/-- A refill leaves the series of a pool as they are, and adds some that nothing was drawn from. -/
theorem replenished_series {w : Walk} {src src' : SourceState}
    (h : w.replenished cfg rt dice src = .ok (rt', src')) :
    ∃ arrivals, rt'.series = rt.series ++ arrivals ∧ ∀ s ∈ arrivals, s.cursor = 0 := by
  have hrefill : ∀ {rt₁ : PoolRuntime} {src₁ : SourceState} {added : ℕ},
      w.refillPool cfg rt dice src = .ok (added, rt₁, src₁) →
      ∃ arrivals, rt₁.series = rt.series ++ arrivals ∧ ∀ s ∈ arrivals, s.cursor = 0 := by
    intro rt₁ src₁ added hone
    have hsame : ∃ arrivals, rt.series = rt.series ++ arrivals ∧
        ∀ s ∈ arrivals, s.cursor = 0 := ⟨[], (List.append_nil _).symm, by simp⟩
    unfold Walk.refillPool at hone
    split_ifs at hone
    · obtain ⟨-, rfl, -⟩ := Prod.mk.inj (Except.ok.inj hone)
      exact hsame
    · obtain ⟨picked, -, hone⟩ := Lib.bind_eq_ok.mp hone
      dsimp only at hone
      split_ifs at hone
      · obtain ⟨-, rfl, -⟩ := Prod.mk.inj (Except.ok.inj hone)
        exact hsame
      · obtain ⟨r, hr, hone⟩ := Lib.bind_eq_ok.mp hone
        obtain ⟨-, rfl, -⟩ := Prod.mk.inj (Except.ok.inj hone)
        obtain ⟨cols, kept, hg, -⟩ := resolvePoolSeries_grouped hr
        refine ⟨r.series.filter fun s => !(rt.series.map (·.key)).contains s.key, ?_, fun s hs =>
          (hg.unplayed s (List.mem_of_mem_filter hs)).1⟩
        unfold PoolRuntime.extendWith
        dsimp only
        split_ifs <;> rfl
  unfold Walk.replenished at h
  split_ifs at h
  · obtain ⟨⟨added, rt₁, src₁⟩, hone, h⟩ := Lib.bind_eq_ok.mp h
    obtain ⟨rfl, -⟩ := Prod.mk.inj (Except.ok.inj h)
    have hseries : (if added = 0 then { rt₁ with exhausted := true } else rt₁).series =
        rt₁.series := by
      split_ifs
      · rfl
      · rfl
    rw [hseries]
    exact hrefill hone
  · obtain ⟨rfl, -⟩ := Prod.mk.inj (Except.ok.inj h)
    exact ⟨[], (List.append_nil _).symm, by simp⟩

theorem Walked.shelved (h : Walked state cfg rt aired) : Shelved rt.series := by
  induction h with
  | opened h => exact poolRuntime_shelved h
  | entered _ _ ih => exact ih
  | visited _ _ hvisit ih =>
    have hkept := PoolRuntime.visit_kept ih.inRange hvisit
    exact ih.of_labels hkept.inRange hkept.labels
  | replenished _ hrefill ih => exact replenished_shelved ih hrefill
  | rolled _ _ hroll _ ih => exact rolled_shelved ih hroll

/-- The place a rollover gives a series: after the item its live cursor tells, where the new list
holds that, else where the ledger seats it. -/
theorem carriedSeries_placed {old : PoolRuntime} (hshelved : Shelved old.series)
    (hplaced : ∀ t ∈ old.series, t.Placed (state.ledgerFor cfg) aired) {s₀ : Series}
    (hs₀ : s₀.cursor = 0)
    (hshow : ∀ t ∈ old.series, t.key = (s₀.seat (state.ledgerFor cfg)).key →
      t.showKey = (s₀.seat (state.ledgerFor cfg)).showKey) :
    (old.carriedSeries (s₀.seat (state.ledgerFor cfg))).Placed (state.ledgerFor cfg) aired := by
  set s := s₀.seat (state.ledgerFor cfg) with hs
  obtain ⟨hkey, hshowKey, hids⟩ := carriedSeries_frame old s
  have hcursor := carriedSeries_cursor old s
  have hseat : s.Placed (state.ledgerFor cfg) aired := Series.seat_placed hs₀ _ _
  intro hpos
  rw [hkey, hshowKey, hids]
  cases hlast : (old.lastAired s.key).bind fun last => s.ids.idxOf? last with
  | none =>
    rw [hlast] at hcursor
    dsimp only at hcursor
    rw [hcursor] at hpos ⊢
    exact hseat hpos
  | some pos =>
    rw [hlast] at hcursor
    dsimp only at hcursor
    obtain ⟨x, hx, hidx⟩ := Option.bind_eq_some_iff.mp hlast
    obtain ⟨hlt, hget, -⟩ := List.idxOf?_eq_some_iff.mp hidx
    have hold : s.key ∈ old.series.map (·.key) := by
      by_contra hnot
      rw [lastAired_none hnot] at hx
      cases hx
    obtain ⟨t, ht, htkey⟩ := List.mem_map.mp hold
    rw [← htkey, lastAired_eq hshelved ht] at hx
    split_ifs at hx with htpos
    obtain ⟨y, hy, hwhose⟩ := hplaced t ht htpos
    obtain rfl := Option.some.inj (hx.symm.trans hy)
    rw [htkey, hshow t ht htkey] at hwhose
    have hnext : pos + 1 < s.ids.length := by
      by_contra hwrap
      have : pos + 1 = s.ids.length := by omega
      rw [hcursor, this, Nat.mod_self] at hpos
      exact absurd hpos (lt_irrefl 0)
    refine ⟨x, ?_, hwhose⟩
    rw [hcursor, Nat.mod_eq_of_lt hnext, Nat.add_sub_cancel, List.getElem?_eq_getElem hlt]
    simpa using hget

theorem Walked.placed (h : Walked state cfg rt aired) :
    ∀ s ∈ rt.series, s.Placed (state.ledgerFor cfg) aired := by
  induction h with
  | opened h =>
    intro s hs
    obtain ⟨s₀, hs₀, rfl⟩ := poolRuntime_seated h s hs
    exact Series.seat_placed hs₀ _ _
  | entered _ _ ih => exact ih
  | @visited _ rt rt' aired _ _ _ _ _ _ out hw hwants hvisit ih =>
    have hshelved := hw.shelved
    obtain ⟨draws, hstood, rfl⟩ := PoolRuntime.visit_stood hshelved.inRange hwants hvisit
    intro s' hs' hpos
    obtain ⟨i, hi'⟩ := List.mem_iff_getElem?.mp hs'
    have hlt : i < rt.series.length := by
      rw [← hstood.length_eq]
      exact (List.getElem?_eq_some_iff.mp hi').1
    have hi := List.getElem?_eq_getElem hlt
    obtain ⟨t, ht, ⟨hkey, hshow, hids⟩, hcursor⟩ := hstood.stood i _ hi
    obtain rfl := Option.some.inj (ht.symm.trans hi')
    rw [lastOf_append, hkey, filed_own hshelved hstood hi]
    split_ifs at hcursor with hown
    · rw [hown, hshow, hids, hcursor]
      exact ih _ (List.mem_of_getElem? hi) (hcursor ▸ hpos)
    · obtain ⟨x, hx⟩ := Option.ne_none_iff_exists'.mp
        (fun hnone => hown (List.getLast?_eq_none_iff.mp hnone))
      rw [hx] at hcursor ⊢
      exact ⟨x, hcursor.resolve_left hpos.ne', Or.inl rfl⟩
  | replenished _ hrefill ih =>
    obtain ⟨arrivals, hseries, hnew⟩ := replenished_series hrefill
    intro s hs
    rw [hseries] at hs
    rcases List.mem_append.mp hs with hs | hs
    · exact ih s hs
    · intro hpos
      exact absurd (hnew s hs) hpos.ne'
  | @rolled _ rt _ _ _ _ _ _ hw hstate hroll hshow ih =>
    unfold Walk.rolled at hroll
    split_ifs at hroll
    · obtain ⟨rfl, -⟩ := Prod.mk.inj (Except.ok.inj hroll)
      exact ih
    · obtain ⟨⟨lists, src₁⟩, -, hroll⟩ := Lib.bind_eq_ok.mp hroll
      obtain ⟨fresh, hfresh, hroll⟩ := Lib.bind_eq_ok.mp hroll
      obtain ⟨rfl, -⟩ := Prod.mk.inj (Except.ok.inj hroll)
      rw [hstate] at hfresh
      intro s' hs'
      obtain ⟨s, hs, rfl⟩ := List.mem_map.mp hs'
      have hframe := carriedSeries_frame rt s
      obtain ⟨s₀, hs₀, rfl⟩ := poolRuntime_seated hfresh s hs
      refine carriedSeries_placed hw.shelved ih hs₀ fun t ht hkey => ?_
      rw [← hframe.2.1]
      exact hshow t ht _ hs' (hkey.trans hframe.1.symm)

theorem carriedSeries_finished (h : Shelved rt.series) {t s : Series} (ht : t ∈ rt.series)
    (hkey : t.key = s.key) : (rt.carriedSeries s).finished = t.finished := by
  have hany : (rt.series.any fun o => o.finished && o.key == s.key) = t.finished := by
    rw [Bool.eq_iff_iff, List.any_eq_true]
    constructor
    · rintro ⟨o, ho, hcond⟩
      obtain ⟨hfinished, hkey'⟩ := Bool.and_eq_true_iff.mp hcond
      rwa [h.eq_of_key ho ht ((eq_of_beq hkey').trans hkey.symm)] at hfinished
    · intro hfinished
      exact ⟨t, ht, Bool.and_eq_true_iff.mpr ⟨hfinished, beq_iff_eq.mpr hkey⟩⟩
  rw [← hany]
  unfold PoolRuntime.carriedSeries
  dsimp only
  split
  · rfl
  · rfl

/-- A rollover partway through a walk skips and replays nothing it can tell of: each series both
lists hold goes on after the last item the walk aired of it, where its live cursor still tells that
item and the new list holds it, and else opens where the ledger seats it. -/
theorem rollover_continues {fresh : PoolRuntime} (h : Walked state cfg rt aired)
    (hfresh : poolRuntime cat v cfg ids block state prev dice want extras = .ok fresh)
    {t s : Series} (ht : t ∈ rt.series) (hs : s ∈ fresh.series) (hkey : t.key = s.key)
    (hshow : t.showKey = s.showKey) :
    ∃ s' ∈ (rt.carryInto fresh).series, s'.key = s.key ∧ s'.ids = s.ids ∧
      s'.finished = t.finished ∧
      s'.cursor =
        match (lastOf aired s.key).bind fun x =>
          if 0 < t.cursor ∧ t.ids[t.cursor - 1]? = some x then s.ids.idxOf? x else none with
        | some pos => (pos + 1) % s.ids.length
        | none => s.cursor := by
  have hshelved := h.shelved
  have hframe := carriedSeries_frame rt s
  refine ⟨rt.carriedSeries s, List.mem_map_of_mem hs, hframe.1, hframe.2.2,
    carriedSeries_finished hshelved ht hkey, ?_⟩
  rw [carriedSeries_cursor, ← hkey, lastAired_eq hshelved ht]
  by_cases hpos : 0 < t.cursor
  · obtain ⟨y, hy, hwhose⟩ := h.placed t ht hpos
    simp only [hpos, if_true, hy, Option.bind_some, true_and, Option.some.injEq]
    rcases hwhose with hlast | hledger
    · rw [hlast, Option.bind_some, if_pos rfl]
    · -- The ledger names the item the cursor tells: the new list already opens after it.
      have hopened : s.cursor = match s.ids.idxOf? y with
          | some pos => (pos + 1) % s.ids.length
          | none => 0 := by
        obtain ⟨s₀, hs₀, hseat⟩ := poolRuntime_seated hfresh s hs
        have hcursor := Series.seat_cursor hs₀ (state.ledgerFor cfg)
        rw [← Series.seat_ids s₀ (state.ledgerFor cfg),
          ← Series.seat_showKey s₀ (state.ledgerFor cfg), ← hseat, ← hshow, hledger] at hcursor
        exact hcursor
      cases hlast : lastOf aired t.key with
      | none =>
        rw [Option.bind_none]
        dsimp only
        cases hidx : s.ids.idxOf? y with
        | none => rfl
        | some pos =>
          rw [hidx] at hopened
          exact hopened.symm
      | some x =>
        rw [Option.bind_some]
        split_ifs with hxy
        · rw [hxy]
        · dsimp only
          cases hidx : s.ids.idxOf? y with
          | none => rfl
          | some pos =>
            rw [hidx] at hopened
            exact hopened.symm
  · simp only [hpos, if_false, Option.bind_none, false_and]
    cases lastOf aired t.key with
    | none => rfl
    | some x => rfl

end Carrying

/-- A pool of two shows, what a visit of three drew from it, and the pool on its list as newly
ranked. -/
def shelfRerank : Except String
    (PoolRuntime × (List EntryId × PoolRuntime × ChannelHistory) × PoolRuntime) := do
  let cfg : Pool := { name := "p", advance := .resume }
  let rt ← openShelf cfg ["a1", "b1", "a2", "b2", "b3"]
  let v ← rt.visit shelfCatalog (.count 3) .start ⟨7, 0, 0⟩ 0 {}
  let fresh ← openShelf cfg ["b3", "b1", "a2", "b2", "a1"]
  pure (rt, v, fresh)

/-- The show part-way through when its pool's list rolled over goes on after "b1", wherever the
new list has it. -/
theorem rollover_continues_shelf : ∃ (rt fresh : PoolRuntime), ∃ s' ∈ (rt.carryInto fresh).series,
    s'.key = "B" ∧ s'.ids = ["b3", "b1", "b2"] ∧ s'.cursor = 2 := by
  have hcheck : (match shelfRerank with
      | .ok (rt, v, fresh) =>
        decide (v.2.1.series[1]?.map (fun t => (t.label, t.showKey, t.cursor)) =
            some (("B", ["b1", "b2", "b3"]), "B", 1) ∧
          fresh.series[0]?.map (fun s => (s.label, s.showKey)) =
            some (("B", ["b3", "b1", "b2"]), "B") ∧
          lastOf ([] ++ rt.filed v.1) "B" = some "b1")
      | .error _ => false) = true := by decide +kernel
  cases hrun : shelfRerank with
  | error e =>
    rw [hrun] at hcheck
    cases hcheck
  | ok run =>
    obtain ⟨rt, v, fresh⟩ := run
    rw [hrun] at hcheck
    obtain ⟨ht, hs, hlast⟩ := of_decide_eq_true hcheck
    obtain ⟨t, ht, htold⟩ := Option.map_eq_some_iff.mp ht
    obtain ⟨s, hs, hsheld⟩ := Option.map_eq_some_iff.mp hs
    simp only [Series.label, Prod.mk.injEq] at htold hsheld
    obtain ⟨⟨htkey, htids⟩, htshow, htcursor⟩ := htold
    obtain ⟨⟨hskey, hsids⟩, hsshow⟩ := hsheld
    obtain ⟨rt₀, hopen, hrun⟩ := Lib.bind_eq_ok.mp hrun
    obtain ⟨v₀, hvisit, hrun⟩ := Lib.bind_eq_ok.mp hrun
    obtain ⟨fresh₀, hfresh, hrun⟩ := Lib.bind_eq_ok.mp hrun
    obtain ⟨rfl, rfl, rfl⟩ : rt₀ = rt ∧ v₀ = v ∧ fresh₀ = fresh := by
      simpa using Except.ok.inj hrun
    have hwalked : Walked {} { name := "p", advance := .resume } v₀.2.1 ([] ++ rt₀.filed v₀.1) :=
      .visited (.opened hopen) (Or.inl rfl) hvisit
    obtain ⟨s', hs', hkey, hids, -, hcursor⟩ := rollover_continues hwalked hfresh
      (List.mem_of_getElem? ht) (List.mem_of_getElem? hs) (htkey.trans hskey.symm)
      (htshow.trans hsshow.symm)
    refine ⟨v₀.2.1, fresh₀, s', hs', hkey.trans hskey, hids.trans hsids, ?_⟩
    have hnext : ((some "b1").bind fun x => if 0 < 1 ∧ ["b1", "b2", "b3"][1 - 1]? = some x then
        ["b3", "b1", "b2"].idxOf? x else none) = some 1 := by decide
    rw [hcursor, hskey, hlast, htcursor, htids, hsids, hnext]
    rfl

end EtvStation
