import EtvStation.Resolve.Ordering
import EtvStation.Resolve.Unaired
import EtvStation.Lib.Loop

/-! An entries-only channel plays its authored list as an endless loop. -/
namespace EtvStation.Resolve

variable {β : Type}

/-- The block is an authored list, the same whatever the seed. -/
def BlockInclude.Lists (b : BlockInclude β) (list : List (ResolvedItem β)) : Prop :=
  ∃ resolve items, b.body = .entries resolve ∧ (∀ seed, resolve seed = .ok items) ∧
    list = match b.mode with
      | .all => items
      | .count n => items.take n

/-- The block is an authored list, which comes to `list` when it is drawn with `seed`. -/
def BlockInclude.DrawsAt (b : BlockInclude β) (seed : UInt64) (list : List (ResolvedItem β)) : Prop :=
  ∃ resolve items, b.body = .entries resolve ∧ resolve seed = .ok items ∧
    list = match b.mode with
      | .all => items
      | .count n => items.take n

/-- The one list the blocks' lists come to. -/
def fused (blocks : List (ℕ × BlockInclude β)) (lists : List (List (ResolvedItem β))) :
    List (ResolvedItem β) :=
  (blocks.zip lists).flatMap fun (b, list) => list.map fun item => { item with block := b.1 }

/-- The blocks are authored lists, which come to the one `list` when they are drawn with `seed`. -/
def Authors (seed : UInt64) (blocks : List (ℕ × BlockInclude β)) (list : List (ResolvedItem β)) :
    Prop :=
  ∃ lists, List.Forall₂ (fun b list => BlockInclude.DrawsAt b.2 seed list) blocks lists ∧
    list = fused blocks lists

/-- A channel of entries blocks only, and the list they author between them. -/
structure Authored (rule : RuleConfig β) (list : List (ResolvedItem β)) : Prop where
  unscheduled : rule.calendar = none
  lists : ∃ lists, List.Forall₂ (fun b list => BlockInclude.Lists b.2 list)
    (rule.blocks.zipIdx.map Prod.swap) lists ∧ list = fused (rule.blocks.zipIdx.map Prod.swap) lists

theorem BlockInclude.Lists.drawsAt {b : BlockInclude β} {list : List (ResolvedItem β)}
    (h : b.Lists list) (seed : UInt64) : b.DrawsAt seed list := by
  obtain ⟨resolve, items, hbody, hresolve, hlist⟩ := h
  exact ⟨resolve, items, hbody, hresolve seed, hlist⟩

theorem Authored.authors {rule : RuleConfig β} {list : List (ResolvedItem β)}
    (h : Authored rule list) (seed : UInt64) :
    Authors seed (rule.blocks.zipIdx.map Prod.swap) list := by
  obtain ⟨lists, hlists, hfused⟩ := h.lists
  exact ⟨lists, hlists.imp fun _ _ hb => hb.drawsAt seed, hfused⟩

section Laid

variable {env : Env β} {rule : RuleConfig β} {state : GenerationState} {seed : UInt64}
  {fill : Option ℕ} {windowStart : ℤ}

/-- One entries block: its list is laid whole, under its own limits. -/
theorem layBlock_entries {l : Laying β} (pos : ℕ) {idx : ℕ} {b : BlockInclude β}
    {list : List (ResolvedItem β)} (hb : b.DrawsAt seed list) :
    ∃ l', env.layBlock rule state seed fill windowStart l pos idx b = .ok l' ∧
      l'.rows.map (·.item) = l.rows.map (·.item) ++ list.map (fun item => { item with block := idx }) ∧
      (∀ row ∈ l'.rows, row ∈ l.rows ∨ row.limits = b.constraints.limits) ∧
      ∃ lo hi, l'.spans = l.spans ++ [(lo, hi, false)] := by
  obtain ⟨resolve, items, hbody, hresolve, hlist⟩ := hb
  have hpattern : b.isPattern = false := by simp only [BlockInclude.isPattern, hbody]
  have hblock : ∀ start channelRule,
      env.resolveBlock b idx seed state fill start channelRule =
        .ok (⟨list, (List.range list.length).map .entry, []⟩, [], []) := by
    intro start channelRule
    unfold Env.resolveBlock
    simp only [hbody, hresolve, hlist]
    cases b.mode <;> rfl
  unfold Env.layBlock
  simp only [hblock, hpattern]
  refine ⟨_, rfl, ?_, fun row hrow => ?_, _, _, rfl⟩
  · have hzip : ((list.zip ((List.range list.length).map Step.entry)).map Prod.fst) = list := by
      rw [List.map_fst_zip]
      simp
    conv_rhs => rw [← hzip]
    simp [List.map_map, Function.comp_def]
  · rcases List.mem_append.mp hrow with hrow | hrow
    · exact Or.inl hrow
    · obtain ⟨_, -, rfl⟩ := List.mem_map.mp hrow
      exact Or.inr rfl

theorem layBlocks_entries (pos : ℕ) {blocks : List (ℕ × BlockInclude β)}
    {lists : List (List (ResolvedItem β))}
    (h : List.Forall₂ (fun b list => BlockInclude.DrawsAt b.2 seed list) blocks lists) (l : Laying β)
    (hspans : ∀ span ∈ l.spans, span.2.2 = false) :
    ∃ l', env.layBlocks rule state seed fill windowStart pos blocks l = .ok l' ∧
      l'.rows.map (·.item) = l.rows.map (·.item) ++ fused blocks lists ∧
      (∀ row ∈ l'.rows, row ∈ l.rows ∨ ∃ b ∈ blocks, row.limits = b.2.constraints.limits) ∧
      (∀ span ∈ l'.spans, span.2.2 = false) ∧
      l'.spans.length = l.spans.length + blocks.length := by
  induction h generalizing pos l with
  | nil => exact ⟨l, rfl, by simp [fused], fun row hrow => Or.inl hrow, hspans, rfl⟩
  | @cons b list blocks lists hb _ ih =>
    have hblock : ∃ l₁, env.layBlock rule state seed fill windowStart l pos b.1 b.2 = .ok l₁ ∧ _ :=
      layBlock_entries pos hb
    obtain ⟨l₁, hlay, hitems₁, hrows₁, lo, hi, hspans₁⟩ := hblock
    have hentries : ∀ span ∈ l₁.spans, span.2.2 = false := by
      intro span hspan
      rw [hspans₁] at hspan
      rcases List.mem_append.mp hspan with hspan | hspan
      · exact hspans span hspan
      · rw [List.mem_singleton.mp hspan]
    obtain ⟨l', hlays, hitems, hrows, hspans', hlen⟩ := ih (pos + 1) l₁ hentries
    refine ⟨l', ?_, ?_, fun row hrow => ?_, hspans', ?_⟩
    · exact Lib.bind_eq_ok.mpr ⟨l₁, hlay, hlays⟩
    · rw [hitems, hitems₁, List.append_assoc]
      rfl
    · rcases hrows row hrow with hrow | ⟨c, hc, hrow⟩
      · exact (hrows₁ row hrow).imp id fun hlimits => ⟨b, List.mem_cons_self, hlimits⟩
      · exact Or.inr ⟨c, List.mem_cons_of_mem _ hc, hrow⟩
    · rw [hlen, hspans₁, List.length_append, List.length_cons, List.length_cons, List.length_nil]
      omega

/-- Entries blocks that can be laid come to a list. -/
theorem layBlocks_authors {pos : ℕ} {blocks : List (ℕ × BlockInclude β)} {l l' : Laying β}
    (hentries : ∀ b ∈ blocks, b.2.isPattern = false)
    (h : env.layBlocks rule state seed fill windowStart pos blocks l = .ok l') :
    ∃ list, Authors seed blocks list := by
  have hlists : ∃ lists,
      List.Forall₂ (fun b list => BlockInclude.DrawsAt b.2 seed list) blocks lists := by
    induction blocks generalizing pos l with
    | nil => exact ⟨[], .nil⟩
    | cons b blocks ih =>
      obtain ⟨l₁, hlay, hrest⟩ := Lib.bind_eq_ok.mp h
      obtain ⟨lists, hlists⟩ := ih (fun c hc => hentries c (List.mem_cons_of_mem _ hc)) hrest
      obtain ⟨⟨block, pools, frozen⟩, hblock, -⟩ := Lib.bind_eq_ok.mp hlay
      have hb := hentries b List.mem_cons_self
      unfold Env.resolveBlock at hblock
      unfold BlockInclude.isPattern at hb
      cases hbody : b.2.body with
      | pattern pattern => simp [hbody] at hb
      | sequencer sequencer => simp [hbody] at hb
      | entries resolve =>
        simp only [hbody] at hblock
        obtain ⟨items, hitems, -⟩ := Lib.bind_eq_ok.mp hblock
        exact ⟨_ :: lists, .cons ⟨resolve, items, hbody, mapError_eq_ok hitems, rfl⟩ hlists⟩
  obtain ⟨lists, hlists⟩ := hlists
  exact ⟨_, lists, hlists, rfl⟩

end Laid

theorem itemsCovering_le (fill laid count : ℕ) (durations : List ℕ) :
    1 ≤ itemsCovering fill laid count durations ∧
      itemsCovering fill laid count durations ≤ max (count + durations.length) 1 := by
  induction durations generalizing laid count with
  | nil =>
    rw [itemsCovering, List.length_nil]
    omega
  | cons d durations ih =>
    rw [itemsCovering, List.length_cons]
    split_ifs
    · omega
    · have := ih (laid + d) (count + 1)
      omega

/-- A seated list is cut to at least one item and at most a whole pass. -/
theorem entriesWindow_bounds (env : Env β) {span : List (ResolvedItem β)} (h : span ≠ [])
    (position : ℕ) (fill : Option ℕ) :
    (env.entriesWindow span position fill).1 = position % span.length ∧
      1 ≤ (env.entriesWindow span position fill).2 ∧
      (env.entriesWindow span position fill).2 ≤ span.length := by
  have hpos := List.length_pos_iff.mpr h
  unfold Env.entriesWindow
  cases fill with
  | none => exact ⟨rfl, hpos, le_rfl⟩
  | some fill =>
    have hbounds := itemsCovering_le fill 0 0
      ((env.estimatedRuntimes span).rotate (position % span.length))
    have hlen : (env.estimatedRuntimes span).length = span.length := by
      simp [Env.estimatedRuntimes]
    rw [List.length_rotate, hlen] at hbounds
    refine ⟨rfl, hbounds.1, hbounds.2.trans ?_⟩
    omega

/-- The items of a generation of an authored list, by their places past where it is seated, and
the position entering each of them. -/
structure Seats (list : List (ResolvedItem β)) (position : ℕ) (order : List ℕ)
    (items : List (ResolvedItem β)) (out : Progress) (progress : List Progress) : Prop where
  perm : order.Perm (List.range order.length)
  nonempty : 1 ≤ order.length
  pass : order.length ≤ list.length
  items : items = order.filterMap fun o => list[(position + o) % list.length]?
  out : out.position = (position + order.length) % list.length
  progress : progress.map (·.position) = (List.range order.length).map fun k =>
    (position + Lib.furthest 0 (order.take k)) % list.length

/-- No block of the channel limits what airs near what. -/
def RuleConfig.Unconstrained (rule : RuleConfig β) : Prop :=
  ∀ b ∈ rule.blocks, b.constraints.limits.isUnconstrained = true

/-- The adjacency pass permutes the rows, and leaves them where nothing is limited. -/
theorem constrainRows_perm {env : Env β} {state : GenerationState} {rows rows' : List (Row β)}
    (h : env.constrainRows state rows = .ok rows') :
    ∃ order : List ℕ, order.Perm (List.range rows.length) ∧
      rows' = order.filterMap (rows[·]?) ∧
      ((∀ row ∈ rows, row.limits.isUnconstrained = true) → order = List.range rows.length) := by
  unfold Env.constrainRows at h
  split_ifs at h with hfree
  · obtain rfl := Except.ok.inj h
    refine ⟨List.range rows.length, .refl _, ?_, fun _ => rfl⟩
    exact (Lib.filterMap_range rows).symm
  · obtain ⟨keys, hkeys, h⟩ := Lib.bind_eq_ok.mp h
    obtain ⟨preceding, -, h⟩ := Lib.bind_eq_ok.mp h
    obtain rfl := Except.ok.inj h
    have hlen : keys.length = rows.length := by
      rw [(Lib.mapM_eq_ok hkeys).1]
      simp
    refine ⟨_, ?_, rfl, fun hall => absurd (List.all_eq_true.mpr hall) hfree⟩
    rw [← hlen]
    exact orderConstrained_perm _ _ _

/-- Each entry of the pass enters at the furthest of those before it. -/
theorem progressPerItem_entries (poolProgress : List (List (BTreeMap String PoolResume)))
    (seat : EntriesSeat) (position : ℕ) (poolAired : List ℕ) (reached : ℕ) (order : List ℕ) :
    (progressPerItem poolProgress (some seat) position poolAired reached
      (order.map Step.entry)).map (·.position) =
      (List.range order.length).map fun k => seat.position (Lib.furthest reached (order.take k)) := by
  induction order generalizing reached with
  | nil => rfl
  | cons o order ih =>
    rw [List.map_cons]
    unfold progressPerItem
    dsimp only
    rw [List.map_cons, ih, List.length_cons, List.range_succ_eq_map, List.map_cons, List.map_map]
    rfl

/-- A list seated whole and cut: its rows are the list read round from the position. -/
theorem cutEntriesWindow_whole {env : Env β} {rows : List (Row β)} (h : rows ≠ []) (position : ℕ)
    (fill : Option ℕ) :
    ∃ seated start laid, env.cutEntriesWindow rows 0 rows.length position fill =
        (seated, some ⟨start, rows.length, laid⟩) ∧
      start = position % rows.length ∧ 1 ≤ laid ∧ laid ≤ rows.length ∧
      laid = (env.entriesWindow (rows.map (·.item)) position fill).2 ∧
      seated.map (·.item) = Lib.loop (rows.map (·.item)) position laid ∧
      seated.map (·.step) = (List.range laid).map .entry ∧
      ∀ row ∈ seated, ∃ row' ∈ rows, row.limits = row'.limits := by
  have hitems : rows.map (·.item) ≠ [] := by simpa using h
  have hwhole : (rows.drop 0).take (rows.length - 0) = rows := by simp
  obtain ⟨hstart, hpos, hle⟩ := entriesWindow_bounds env hitems position fill
  unfold Env.cutEntriesWindow
  rw [hwhole, if_neg (by simpa using h)]
  rw [List.length_map] at hstart hle
  dsimp only
  generalize env.entriesWindow (rows.map (·.item)) position fill = window at hstart hpos hle ⊢
  obtain ⟨start, laid⟩ := window
  dsimp only at hstart hpos hle ⊢
  subst hstart
  refine ⟨_, _, _, rfl, rfl, hpos, hle, rfl, ?_⟩
  simp only [List.take_zero, List.nil_append, List.drop_length, List.append_nil, List.map_map]
  have hcut : ((rows.rotate (position % rows.length)).take laid).map (·.item) =
      Lib.loop (rows.map (·.item)) position laid := by
    have hmod := Lib.loop_mod (rows.map (·.item)) position laid
    rw [List.length_map] at hmod
    rw [List.map_take, List.map_rotate, Lib.take_rotate _ (by rwa [List.length_map]), hmod]
  refine ⟨?_, ?_, fun row hrow => ?_⟩
  · rw [← hcut, ← List.zipIdx_map_fst 0 ((rows.rotate (position % rows.length)).take laid), List.map_map]
    simp [Function.comp_def]
  · have hlen : ((rows.rotate (position % rows.length)).take laid).length = laid := by
      simpa using hle
    have hidx := List.zipIdx_map_snd 0 ((rows.rotate (position % rows.length)).take laid)
    rw [hlen] at hidx
    rw [List.range_eq_range', ← hidx, List.map_map]
    rfl
  · obtain ⟨⟨row', o⟩, hmem, rfl⟩ := List.mem_map.mp hrow
    have hin := List.fst_mem_of_mem_zipIdx hmem
    exact ⟨row', List.mem_rotate.mp (List.mem_of_mem_take hin), rfl⟩

section Seated

variable {env : Env β} {rule : RuleConfig β} {list : List (ResolvedItem β)}

/-- An authored list is laid whole, then seated and cut. -/
theorem seatEntries_authored {blocks : List (ℕ × BlockInclude β)} {seed : UInt64}
    (hlists : Authors seed blocks list) (hne : list ≠ []) (state : GenerationState)
    (fill : Option ℕ) (windowStart : ℤ) :
    ∃ l rows start laid,
      env.layBlocks rule state seed fill windowStart 0 blocks {} = .ok l ∧
      env.seatEntries state fill l = .ok (rows, some ⟨start, list.length, laid⟩) ∧
      (l.spans.all fun (_, _, isPattern) => isPattern) = false ∧
      start = state.resume.position % list.length ∧ 1 ≤ laid ∧ laid ≤ list.length ∧
      laid = (env.entriesWindow list state.resume.position fill).2 ∧
      rows.map (·.item) = Lib.loop list state.resume.position laid ∧
      rows.map (·.step) = (List.range laid).map .entry ∧
      ((∀ b ∈ blocks, b.2.constraints.limits.isUnconstrained = true) →
        ∀ row ∈ rows, row.limits.isUnconstrained = true) := by
  obtain ⟨lists, hlists, hfused⟩ := hlists
  have hlays : ∃ l, env.layBlocks rule state seed fill windowStart 0 blocks {} = .ok l ∧ _ :=
    layBlocks_entries 0 hlists {} fun _ hspan => absurd hspan List.not_mem_nil
  obtain ⟨l, hlay, hitems, hlimits, hspans, hcount⟩ := hlays
  have hitems' : l.rows.map (·.item) = list := by
    rw [hitems, hfused]
    rfl
  have hrows : l.rows ≠ [] := by
    intro hnil
    rw [hnil] at hitems'
    exact hne hitems'.symm
  have hlen : l.rows.length = list.length := by rw [← hitems', List.length_map]
  have hblocks : l.spans ≠ [] := by
    intro hnil
    rw [hnil, List.length_nil] at hcount
    have hnone : blocks = [] := List.length_eq_zero_iff.mp (by
      have hzero : ({} : Laying β).spans.length = 0 := rfl
      omega)
    rw [hfused, hnone] at hne
    exact hne rfl
  have hcut : ∃ rows start laid, env.cutEntriesWindow l.rows 0 l.rows.length
      state.resume.position fill = (rows, some ⟨start, l.rows.length, laid⟩) ∧ _ :=
    cutEntriesWindow_whole hrows state.resume.position fill
  obtain ⟨rows, start, laid, hcut, hstart, hpos, hle, hlaid, hseated, hsteps, hfrom⟩ := hcut
  rw [hlen] at hcut hstart hle
  rw [hitems'] at hseated hlaid
  have hfilter : l.spans.filter (fun (_, _, isPattern) => !isPattern) = l.spans :=
    List.filter_eq_self.mpr fun span hspan => by simp [hspans span hspan]
  refine ⟨l, rows, start, laid, hlay, ?_, ?_, hstart, hpos, hle, hlaid, hseated, hsteps, ?_⟩
  · unfold Env.seatEntries
    simp only [hfilter]
    rw [if_neg (by simpa using hblocks), if_true, hlen, hcut]
  · obtain ⟨span, hspan⟩ := List.exists_mem_of_ne_nil _ hblocks
    refine List.all_eq_false.mpr ⟨span, hspan, ?_⟩
    simp [hspans span hspan]
  · intro hfree row hrow
    obtain ⟨row', hrow', hsame⟩ := hfrom row hrow
    rcases hlimits row' hrow' with hnew | ⟨b, hb, hlim⟩
    · exact absurd hnew List.not_mem_nil
    · rw [hsame, hlim]
      exact hfree b hb

theorem map_filterMap_getElem? {γ : Type} (f : Row β → γ) (rows : List (Row β)) (order : List ℕ) :
    (order.filterMap (rows[·]?)).map f = order.filterMap ((rows.map f)[·]?) := by
  rw [List.map_filterMap]
  simp only [List.getElem?_map]

/-- Rows that read a list round, taken in an order. -/
theorem items_of_order {rows : List (Row β)} {order : List ℕ} {position laid : ℕ} (hne : list ≠ [])
    (hitems : rows.map (·.item) = Lib.loop list position laid) (hin : ∀ o ∈ order, o < laid) :
    (order.filterMap (rows[·]?)).map (·.item) =
      order.filterMap fun o => list[(position + o) % list.length]? := by
  rw [map_filterMap_getElem?, hitems]
  exact List.filterMap_congr fun o ho => Lib.getElem?_loop hne _ (hin o ho)

/-- One generation of an authored list is a seating of it. -/
theorem resolveChannel_seats (hlist : Authored rule list) (hne : list ≠ [])
    (state : GenerationState) (fill : Option ℕ) (windowStart : ℤ) :
    (∀ {items out progress},
      env.resolveChannel rule state fill windowStart = .ok (items, out, progress) →
      ∃ order, Seats list state.resume.position order items out.toProgress progress ∧
        (rule.Unconstrained → order = List.range order.length)) ∧
    (rule.Unconstrained → ∃ result, env.resolveChannel rule state fill windowStart = .ok result) := by
  have hseat : ∃ l rows start laid, env.layBlocks rule state (env.seed windowStart)
      (Env.calendarFill rule (env.rolloverFill rule fill windowStart) windowStart) windowStart 0
      (Env.selected rule none) {} = .ok l ∧ _ :=
    seatEntries_authored (hlist.authors _) hne state _ windowStart
  obtain ⟨l, rows, start, laid, hlay, hseat, hspans, hstart, hpos, hle, -, hitems, hsteps, hplain⟩ :=
    hseat
  have hfree : rule.Unconstrained → ∀ row ∈ rows, row.limits.isUnconstrained = true := by
    intro hun
    refine hplain fun b hb => ?_
    obtain ⟨e, he, rfl⟩ := List.mem_map.mp hb
    exact hun _ (List.fst_mem_of_mem_zipIdx he)
  have hrows : rows.isEmpty = false := by
    cases rows with
    | nil =>
      have := congrArg List.length hitems
      rw [Lib.length_loop hne] at this
      simp at this
      omega
    | cons _ _ => rfl
  have hlen : rows.length = laid := by
    have := congrArg List.length hitems
    rwa [Lib.length_loop hne, List.length_map] at this
  unfold Env.resolveChannel
  simp only [hlist.unscheduled, Option.map_none, Env.slotState]
  constructor
  · intro items out progress h
    obtain ⟨l', hl', h⟩ := Lib.bind_eq_ok.mp h
    obtain rfl := Except.ok.inj (hlay.symm.trans hl')
    obtain ⟨seated, hseated, h⟩ := Lib.bind_eq_ok.mp h
    obtain rfl := Except.ok.inj (hseat.symm.trans hseated)
    simp only [hrows, hspans] at h
    obtain ⟨rows', hconstrain, h⟩ := Lib.bind_eq_ok.mp h
    obtain ⟨rfl, hrest⟩ := Prod.mk.inj (Except.ok.inj h)
    obtain ⟨rfl, rfl⟩ := Prod.mk.inj hrest
    obtain ⟨order, hperm, rfl, hunlimited⟩ := constrainRows_perm hconstrain
    rw [hlen] at hperm hunlimited
    have horder : order.length = laid := by simpa using hperm.length_eq
    have hin : ∀ o ∈ order, o < laid := fun o ho => List.mem_range.mp (hperm.mem_iff.mp ho)
    refine ⟨order, ⟨by rwa [horder], by rwa [horder], by rwa [horder], ?_, ?_, ?_⟩, ?_⟩
    · exact items_of_order hne hitems hin
    · rw [horder, hstart]
      exact Nat.mod_add_mod _ _ _
    · have hstep : (order.filterMap (rows[·]?)).map (·.step) = order.map .entry := by
        have hentry : ∀ o ∈ order, ((List.range laid).map Step.entry)[o]? = some (.entry o) := by
          intro o ho
          rw [List.getElem?_map, List.getElem?_range (hin o ho)]
          rfl
        rw [map_filterMap_getElem?, hsteps, List.filterMap_congr hentry, List.filterMap_eq_map']
      rw [hstep, progressPerItem_entries, hstart]
      exact List.map_congr_left fun k _ => Nat.mod_add_mod _ _ _
    · intro hun
      rw [horder]
      exact hunlimited (hfree hun)
  · intro hun
    have hok : env.constrainRows state rows = .ok rows := by
      unfold Env.constrainRows
      rw [if_pos (List.all_eq_true.mpr (hfree hun))]
    simp [hlay, hseat, hok, hrows, bind, Except.bind, pure, Except.pure]

end Seated

/-- Generations one after another, each from the state the one before ends in. -/
inductive Generations (env : Env β) (rule : RuleConfig β) :
    Progress → List (List (ResolvedItem β)) → Progress → Prop where
  | nil (p : Progress) : Generations env rule p [] p
  | cons {state : GenerationState} {fill : Option ℕ} {windowStart : ℤ}
      {items : List (ResolvedItem β)} {out : ResumeMap} {progress : List Progress}
      {rest : List (List (ResolvedItem β))} {q : Progress}
      (run : env.resolveChannel rule state fill windowStart = .ok (items, out, progress))
      (next : Generations env rule out.toProgress rest q) :
      Generations env rule state.resume.toProgress (items :: rest) q

section Runs

variable {env : Env β} {rule : RuleConfig β} {list : List (ResolvedItem β)}

theorem Seats.length_eq {position : ℕ} {order : List ℕ} {items : List (ResolvedItem β)}
    {out : Progress} {progress : List Progress} (hne : list ≠ [])
    (h : Seats list position order items out progress) : items.length = order.length := by
  rw [h.items, List.filterMap_length_eq_length]
  intro o _
  obtain ⟨a, ha⟩ := Lib.getElem?_mod hne (position + o)
  rw [ha]
  rfl

/-- Unlimited, a generation airs the loop from its position on. -/
theorem Seats.loop {position : ℕ} {order : List ℕ} {items : List (ResolvedItem β)}
    {out : Progress} {progress : List Progress} (hne : list ≠ [])
    (h : Seats list position order items out progress) (horder : order = List.range order.length) :
    items = Lib.loop list position items.length ∧
      out.position = (position + items.length) % list.length ∧
      ∀ k at_, progress[k]? = some at_ →
        k < items.length ∧ at_.position = (position + k) % list.length := by
  have hitems : items = Lib.loop list position order.length := by
    rw [h.items, horder, List.length_range]
    rfl
  have hlen := h.length_eq hne
  refine ⟨by rwa [hlen], by rw [h.out, hlen], fun k at_ hat => ?_⟩
  have hget : (progress.map (·.position))[k]? = some at_.position := by
    rw [List.getElem?_map, hat]
    rfl
  rw [h.progress, List.getElem?_map] at hget
  obtain ⟨k', hk', hpos⟩ := Option.map_eq_some_iff.mp hget
  obtain ⟨hlt, heq⟩ := List.getElem?_eq_some_iff.mp hk'
  rw [List.getElem_range] at heq
  subst heq
  rw [List.length_range] at hlt
  have htake : Lib.furthest 0 (order.take k) = k := by
    rw [horder, List.take_range, min_eq_left hlt.le, Lib.furthest_range]
  rw [htake] at hpos
  exact ⟨by rwa [hlen], hpos.symm⟩

theorem Generations.loop (hlist : Authored rule list) (hne : list ≠ []) (hfree : rule.Unconstrained)
    {p q : Progress} {generations : List (List (ResolvedItem β))}
    (h : Generations env rule p generations q) :
    generations.flatten = Lib.loop list p.position generations.flatten.length := by
  induction h with
  | nil p => rfl
  | @cons state fill windowStart items out progress rest q run next ih =>
    obtain ⟨order, hseats, horder⟩ :=
      (resolveChannel_seats hlist hne state fill windowStart).1 run
    obtain ⟨hitems, hout, -⟩ := hseats.loop hne (horder hfree)
    rw [hout, Lib.loop_mod] at ih
    rw [List.flatten_cons, List.length_append, Lib.loop_add, ← hitems, ← ih]

/-- An authored list is played as an endless loop. Where nothing is limited each generation
succeeds with an item at least, the generations come to the list read round from where they
start, and going on from the state entering any item of one airs the items that followed it. Where
the adjacency pass permutes, going on from the state entering an item airs none of the places
aired before it in this pass of the list. -/
theorem resolveChannel_entries (hlist : Authored rule list) (hne : list ≠ []) :
    (rule.Unconstrained →
      (∀ state fill windowStart, ∃ items out progress,
        env.resolveChannel rule state fill windowStart = .ok (items, out, progress) ∧
        items ≠ [] ∧ progress.length = items.length) ∧
      (∀ {p generations q}, Generations env rule p generations q →
        generations.flatten = Lib.loop list p.position generations.flatten.length) ∧
      ∀ {state fill windowStart items out progress},
        env.resolveChannel rule state fill windowStart = .ok (items, out, progress) →
        ∀ k at_, progress[k]? = some at_ →
          ∀ {generations q}, Generations env rule at_ generations q →
            items.take k ++ generations.flatten =
              Lib.loop list state.resume.position (k + generations.flatten.length)) ∧
    ∀ {state fill windowStart items out progress},
      env.resolveChannel rule state fill windowStart = .ok (items, out, progress) →
      ∃ order, Seats list state.resume.position order items out.toProgress progress ∧
        ∀ k at_, progress[k]? = some at_ →
          ∀ {state' fill' windowStart' items' out' progress'},
            state'.resume.toProgress = at_ →
            env.resolveChannel rule state' fill' windowStart' = .ok (items', out', progress') →
            let first := Lib.furthest 0 (order.take k)
            at_.position = (state.resume.position + first) % list.length ∧
              ∃ order', Seats list at_.position order' items' out'.toProgress progress' ∧
                ∀ o' ∈ order', first + o' < list.length → first + o' ∉ order.take k := by
  constructor
  · intro hfree
    refine ⟨fun state fill windowStart => ?_, fun hrun => hrun.loop hlist hne hfree, ?_⟩
    · have hseats : (∀ {items out progress},
          env.resolveChannel rule state fill windowStart = .ok (items, out, progress) → _) ∧ _ :=
        resolveChannel_seats hlist hne state fill windowStart
      obtain ⟨⟨items, out, progress⟩, hrun⟩ := hseats.2 hfree
      obtain ⟨order, hseat, horder⟩ := hseats.1 hrun
      obtain ⟨hitems, -, -⟩ := hseat.loop hne (horder hfree)
      have hlen := hseat.length_eq hne
      refine ⟨items, out, progress, hrun, ?_, ?_⟩
      · have := hseat.nonempty
        exact List.length_pos_iff.mp (by omega)
      · have := congrArg List.length hseat.progress
        simpa [hlen] using this
    · intro state fill windowStart items out progress hrun k at_ hat generations q hnext
      obtain ⟨order, hseat, horder⟩ :=
        (resolveChannel_seats hlist hne state fill windowStart).1 hrun
      obtain ⟨hitems, -, hentering⟩ := hseat.loop hne (horder hfree)
      obtain ⟨hk, hpos⟩ := hentering k at_ hat
      have hprefix : items.take k = Lib.loop list state.resume.position k := by
        have hsplit : items.length = k + (items.length - k) := by omega
        rw [hitems, hsplit, Lib.loop_add, List.take_left' (Lib.length_loop hne _ _)]
      have hrest := hnext.loop hlist hne hfree
      rw [hpos, Lib.loop_mod] at hrest
      rw [Lib.loop_add, hprefix, ← hrest]
  · intro state fill windowStart items out progress hrun
    obtain ⟨order, hseat, -⟩ := (resolveChannel_seats hlist hne state fill windowStart).1 hrun
    refine ⟨order, hseat, fun k at_ hat state' fill' windowStart' items' out' progress' hat' hrun' => ?_⟩
    obtain ⟨order', hseat', -⟩ := (resolveChannel_seats hlist hne state' fill' windowStart').1 hrun'
    have hpos : state'.resume.position = at_.position := congrArg Progress.position hat'
    rw [hpos] at hseat'
    have hget : (progress.map (·.position))[k]? = some at_.position := by
      rw [List.getElem?_map, hat]
      rfl
    rw [hseat.progress, List.getElem?_map] at hget
    obtain ⟨k', hk', hentering⟩ := Option.map_eq_some_iff.mp hget
    obtain ⟨_, heq⟩ := List.getElem?_eq_some_iff.mp hk'
    rw [List.getElem_range] at heq
    subst heq
    refine ⟨hentering.symm, order', hseat', fun o' _ _ hout => ?_⟩
    -- A place aired is before the furthest, which is where the regenerated list starts.
    have hlt : _ < Lib.furthest 0 (order.take k) := Lib.lt_furthest hout
    omega

end Runs

def marathon : RuleConfig Unit where
  blocks := [{
    body := .entries fun _ => .ok [(clip "alien" 1).1, (clip "brazil" 1).1, (clip "clue" 1).1] }]

theorem marathon_authored : Authored marathon
    [(clip "alien" 1).1, (clip "brazil" 1).1, (clip "clue" 1).1] where
  unscheduled := rfl
  lists := by
    refine ⟨[[(clip "alien" 1).1, (clip "brazil" 1).1, (clip "clue" 1).1]], ?_, rfl⟩
    exact List.Forall₂.cons ⟨_, _, rfl, fun _ => rfl, rfl⟩ List.Forall₂.nil

/-- Two of the films fill two hours, and the generation after goes on with the third; regenerating
from the second of them airs it again and then the third. -/
theorem resolveChannel_entries_marathon :
    ∃ items out progress,
      plainEnv.resolveChannel marathon {} (some 7200000000000) 0 = .ok (items, out, progress) ∧
      items.map (·.id) = ["alien", "brazil"] ∧
      (∀ {generations q}, Generations plainEnv marathon out.toProgress generations q →
        generations.flatten = Lib.loop [(clip "alien" 1).1, (clip "brazil" 1).1, (clip "clue" 1).1]
          2 generations.flatten.length) ∧
      ∃ at_, progress[1]? = some at_ ∧
        ∀ {generations q}, Generations plainEnv marathon at_ generations q →
          items.take 1 ++ generations.flatten =
            Lib.loop [(clip "alien" 1).1, (clip "brazil" 1).1, (clip "clue" 1).1] 0
              (1 + generations.flatten.length) := by
  have hmain : (_ → (∀ state fill windowStart, ∃ items out progress,
      plainEnv.resolveChannel marathon state fill windowStart = .ok (items, out, progress) ∧ _) ∧ _) ∧
      _ := resolveChannel_entries marathon_authored (List.cons_ne_nil _ _)
  have hfree : marathon.Unconstrained := by
    intro b hb
    obtain rfl := List.mem_singleton.mp hb
    rfl
  obtain ⟨-, hloop, hregenerate⟩ := hmain.1 hfree
  have hids : (plainEnv.resolveChannel marathon {} (some 7200000000000) 0).toOption.map
      (fun r => (r.1.map (·.id), r.2.1.position, r.2.2.length)) =
        some (["alien", "brazil"], 2, 2) := by decide
  cases hrun : plainEnv.resolveChannel marathon {} (some 7200000000000) 0 with
  | error e => simp [hrun, Except.toOption] at hids
  | ok result =>
    obtain ⟨items, out, progress⟩ := result
    simp only [hrun, Except.toOption, Option.map_some, Option.some.injEq, Prod.mk.injEq] at hids
    obtain ⟨hitems, hposition, hlen⟩ := hids
    have hat : progress[1]? = some progress[1] := List.getElem?_eq_getElem (by omega)
    refine ⟨items, out, progress, rfl, hitems, fun hruns => ?_, progress[1], hat, ?_⟩
    · have h := hloop hruns
      rwa [hposition] at h
    · exact hregenerate hrun 1 _ hat

end EtvStation.Resolve
