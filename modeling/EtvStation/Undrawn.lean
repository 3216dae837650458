import EtvStation.Rotation

/-! Taking rotation draws back. A wipe that finds no checkpoint forgets the draws made from an
instant on, and the generation after it draws again from what is left. -/
namespace EtvStation

/-- What a rotation map holds for `name`. -/
def stateOf (rotations : BTreeMap String RotationResume) (name : String) : RotationResume :=
  (rotations.get name).getD {}

/-- The draws taken back are as if never made: every rotation has the pass, the cycle and the
eligibility it had, and placements from `t` on are drawn as they would have been. -/
structure Undone (slots : BTreeMap String BlockInclude) (t : ℤ)
    (stood forgot : BTreeMap String RotationResume) : Prop where
  drawn : ∀ name block, slots.get name = some block → block.isRotation →
    (stateOf forgot name).drawn = (stateOf stood name).drawn
  cycle : ∀ name block, slots.get name = some block → block.isRotation →
    (stateOf forgot name).cycle = (stateOf stood name).cycle
  eligible : ∀ name block, slots.get name = some block → block.isRotation → ∀ m ∈ block.slots,
    ∀ at_, t ≤ at_ → isEligible (stateOf forgot name).recent m block.gap at_ =
      isEligible (stateOf stood name).recent m block.gap at_
  draws : ∀ seedAt fuel (later : List Placement), (later.map (·.start)).Pairwise (· < ·) →
    (∀ p ∈ later, t ≤ p.at_) →
    (resolveAll slots seedAt fuel later forgot).map Prod.fst =
      (resolveAll slots seedAt fuel later stood).map Prod.fst

def toCome (block : BlockInclude) (drawn : List String) : List String :=
  block.slots.dedup.filter fun m => m ∉ drawn

/-- No placement from `t` on reads a draw of `lost` without a draw in `kept` that says as much. -/
def Unread (block : BlockInclude) (t : ℤ) (lost kept : List RotationDraw) : Prop :=
  match block.gap with
  | .positions n => ∀ d ∈ (lost ++ kept).reverse.take n, d.member ∈ block.slots →
      ∃ h ∈ kept, h.member = d.member
  | .duration g => ∀ d ∈ lost, d.member ∈ block.slots → t < d.at_ + g →
      ∃ h ∈ kept, h.member = d.member ∧ d.at_ ≤ h.at_

/-- Draws made on `stood` that can be taken back: under `round_robin` they open no new pass, at
random they are of no member standing in one, and what the record dropped to hold them is not
missed. -/
structure Undoable (block : BlockInclude) (t : ℤ) (stood : RotationResume)
    (since : List (Placement × DrawReason)) (dropped : ℕ) : Prop where
  pass : block.selects = .roundRobin → since.length ≤ (toCome block stood.drawn).length
  apart : block.selects = .random → ∀ d ∈ since, d.2.member ∉ stood.drawn
  unread : Unread block t (stood.recent.take dropped) (stood.recent.drop dropped)

/-- The draws one rotation makes on `s`, each for a placement not in its record. -/
inductive DrawsOn (name : String) (block : BlockInclude) (seedAt : ℤ → UInt64)
    (s : RotationResume) : List (Placement × DrawReason) → RotationResume → Prop
  | nil : DrawsOn name block seedAt s [] s
  | snoc {ds : List (Placement × DrawReason)} {state : RotationResume}
      (h : DrawsOn name block seedAt s ds state) (p : Placement)
      (hfresh : state.drawnAt block p.at_ = none) :
      DrawsOn name block seedAt s
        (ds ++ [(p, (draw name block state (seedAt p.at_) p.start p.at_).1)])
        (draw name block state (seedAt p.at_) p.start p.at_).2

/-- Draws from `instant` on at the end of a record are the ones forgotten. -/
theorem forgetFrom_append {instant : ℤ} {state : RotationResume} {kept gone : List RotationDraw}
    (hsplit : state.recent = kept ++ gone) (hgone : ∀ d ∈ gone, instant ≤ d.at_)
    (hkept : ∀ d ∈ kept, d.at_ < instant) :
    state.forgetFrom instant = { state with
      recent := kept, drawn := state.drawn.filter fun m => m ∉ gone.map (·.member) } := by
  have htake : state.recent.reverse.takeWhile (fun d => d.at_ ≥ instant) = gone.reverse := by
    rw [hsplit, List.reverse_append, List.takeWhile_append_of_pos (by simpa using hgone)]
    have hnone : kept.reverse.takeWhile (fun d => d.at_ ≥ instant) = [] := by
      cases hcases : kept.reverse with
      | nil => rfl
      | cons d ds =>
        have hd : d ∈ kept := List.mem_reverse.mp (hcases ▸ List.mem_cons_self)
        have := hkept d hd
        rw [List.takeWhile_cons_of_neg (by simpa using this)]
    rw [hnone, List.append_nil]
  have hdrop : state.recent.rdropWhile (fun d => d.at_ ≥ instant) = kept := by
    have hsame := List.takeWhile_append_dropWhile
      (p := fun d : RotationDraw => decide (d.at_ ≥ instant)) (l := state.recent.reverse)
    rw [htake, hsplit, List.reverse_append] at hsame
    rw [List.rdropWhile, hsplit, List.reverse_append, List.append_cancel_left hsame,
      List.reverse_reverse]
  unfold RotationResume.forgetFrom
  dsimp only
  rw [htake, hdrop]
  simp only [List.map_reverse, RotationResume.mk.injEq, true_and, and_true]
  refine List.filter_congr fun m _ => ?_
  rw [List.contains_eq_mem, ← decide_not]
  simp only [List.mem_reverse]

/-- Recording a draw drops only the oldest ones. -/
theorem recordDraw_split (recent : List RotationDraw) (gap : NoRepeatWithin) (member : String)
    (at_ : ℤ) : ∃ more, recent ++ [⟨member, at_⟩] = more ++ recordDraw recent gap member at_ := by
  cases gap with
  | positions n =>
    obtain ⟨more, heq, -⟩ := trimDraws_positions (max RECENT_CAP n) (recent ++ [⟨member, at_⟩])
    exact ⟨more, heq⟩
  | duration d =>
    obtain ⟨more, heq, -, -⟩ := trimDraws_duration (at_ - d) (recent ++ [⟨member, at_⟩])
    exact ⟨more, heq⟩

/-- What a new draw does to the pass. -/
theorem draw_pass (name : String) {block : BlockInclude} {state : RotationResume}
    (seed : UInt64) (start : ℤ) {at_ : ℤ} (hfresh : state.drawnAt block at_ = none) :
    let after := (draw name block state seed start at_).2
    (block.selects = .roundRobin → after.cycle =
      if block.slots.all fun m => state.drawn.contains m then state.cycle + 1
      else state.cycle) ∧
    (block.selects = .random → after.cycle = state.cycle ∧ after.drawn = state.drawn) := by
  simp only [draw, hfresh]
  cases block.selects with
  | roundRobin =>
    refine ⟨fun _ => ?_, fun hne => by cases hne⟩
    dsimp only [chooseRoundRobin]
    split <;> rfl
  | random =>
    refine ⟨fun hne => (by cases hne), fun _ => ?_⟩
    dsimp only [chooseRandom]
    split_ifs <;> exact ⟨rfl, rfl⟩

section Runs

variable {name : String} {block : BlockInclude} {seedAt : ℤ → UInt64} {s state : RotationResume}
  {ds : List (Placement × DrawReason)}

theorem DrawsOn.split (hne : block.slots ≠ []) (h : DrawsOn name block seedAt s ds state) :
    ∃ lost, s.recent ++ history ds = lost ++ state.recent := by
  induction h with
  | nil => exact ⟨[], by simp [history]⟩
  | @snoc ds state h p hfresh ih =>
    obtain ⟨lost, heq⟩ := ih
    obtain ⟨-, -, -, hrecent, -⟩ := draw_fresh name (seedAt p.at_) p.start hne hfresh
    obtain ⟨more, hmore⟩ := recordDraw_split state.recent block.gap
      (draw name block state (seedAt p.at_) p.start p.at_).1.member p.at_
    refine ⟨lost ++ more, ?_⟩
    rw [history_append, ← List.append_assoc, heq, hrecent, List.append_assoc, List.append_assoc,
      ← hmore]
    rfl

theorem DrawsOn.random (h : DrawsOn name block seedAt s ds state)
    (hselect : block.selects = .random) : state.cycle = s.cycle ∧ state.drawn = s.drawn := by
  induction h with
  | nil => exact ⟨rfl, rfl⟩
  | snoc h p hfresh ih =>
    obtain ⟨hcycle, hdrawn⟩ := (draw_pass name (seedAt p.at_) p.start hfresh).2 hselect
    exact ⟨hcycle.trans ih.1, hdrawn.trans ih.2⟩

theorem toCome_eq_nil_iff {drawn : List String} :
    toCome block drawn = [] ↔ (block.slots.all fun m => drawn.contains m) = true := by
  simp [toCome, List.filter_eq_nil_iff]

/-- A member the pass had still to come to leaves one fewer. -/
theorem toCome_append {drawn : List String} {m : String} (hm : m ∈ block.slots)
    (hnew : m ∉ drawn) :
    (toCome block (drawn ++ [m])).length + 1 = (toCome block drawn).length := by
  have hin : m ∈ toCome block drawn := by
    simp [toCome, hm, hnew]
  have hnodup : (toCome block drawn).Nodup := (List.nodup_dedup _).filter _
  have herase : toCome block (drawn ++ [m]) = (toCome block drawn).erase m := by
    rw [hnodup.erase_eq_filter, toCome, toCome, List.filter_filter]
    refine List.filter_congr fun x _ => ?_
    simp only [List.mem_append, List.mem_singleton, not_or, bne, beq_eq_decide, Bool.decide_and,
      decide_not]
    exact Bool.and_comm _ _
  rw [herase, List.length_erase_of_mem hin]
  have := List.length_pos_of_mem hin
  omega

/-- Draws go on with the pass as long as it has members to come, and open another after that. -/
theorem DrawsOn.roundRobin (hne : block.slots ≠ []) (h : DrawsOn name block seedAt s ds state)
    (hselect : block.selects = .roundRobin) :
    (ds.length ≤ (toCome block s.drawn).length → state.cycle = s.cycle ∧
      state.drawn = s.drawn ++ ds.map (·.2.member) ∧ (∀ d ∈ ds, d.2.member ∉ s.drawn) ∧
      (toCome block state.drawn).length + ds.length = (toCome block s.drawn).length) ∧
    ((toCome block s.drawn).length < ds.length → s.cycle < state.cycle) := by
  induction h with
  | nil => simp
  | @snoc ds state h p hfresh ih =>
    obtain ⟨hin, -, -, -, hpass⟩ := draw_fresh name (seedAt p.at_) p.start hne hfresh
    obtain ⟨hnew, hdrawn⟩ := hpass hselect
    have hcycle := (draw_pass name (seedAt p.at_) p.start hfresh).1 hselect
    set reason := (draw name block state (seedAt p.at_) p.start p.at_).1
    set after := (draw name block state (seedAt p.at_) p.start p.at_).2
    rw [List.length_append, List.length_singleton]
    constructor
    · intro hroom
      obtain ⟨hsame, hlist, hapart, hleft⟩ := ih.1 (by omega)
      have hopen : ¬ (block.slots.all fun m => state.drawn.contains m) = true := by
        rw [← toCome_eq_nil_iff, ← List.length_eq_zero_iff]
        omega
      rw [if_neg hopen] at hnew hdrawn hcycle
      refine ⟨hcycle.trans hsame, ?_, ?_, ?_⟩
      · rw [hdrawn, hlist, List.map_append, List.append_assoc]
        rfl
      · intro d hd
        rcases List.mem_append.mp hd with hd | hd
        · exact hapart d hd
        · obtain rfl := List.mem_singleton.mp hd
          intro hmem
          apply hnew
          rw [hlist]
          exact List.mem_append_left _ hmem
      · rw [hdrawn]
        have := toCome_append hin hnew
        omega
    · intro hover
      by_cases hroom : ds.length ≤ (toCome block s.drawn).length
      · obtain ⟨hsame, -, -, hleft⟩ := ih.1 hroom
        have hfull : (block.slots.all fun m => state.drawn.contains m) = true := by
          rw [← toCome_eq_nil_iff, ← List.length_eq_zero_iff]
          omega
        rw [if_pos hfull] at hcycle
        omega
      · have hlt := ih.2 (by omega)
        split_ifs at hcycle <;> omega

end Runs

/-- Two records a draw from `t` on cannot tell apart: the one only lacks the other's oldest draws,
and they answer alike which members may air. -/
structure Alike (block : BlockInclude) (t : ℤ) (a b : RotationResume) : Prop where
  cycle : b.cycle = a.cycle
  drawn : b.drawn = a.drawn
  recent : ∃ lost, a.recent = lost ++ b.recent ∧ ∀ d ∈ lost, d.at_ < t
  eligible : ∀ m ∈ block.slots, ∀ at_, t ≤ at_ →
    isEligible b.recent m block.gap at_ = isEligible a.recent m block.gap at_

theorem Alike.mono {block : BlockInclude} {t t' : ℤ} {a b : RotationResume}
    (h : Alike block t a b) (hle : t ≤ t') : Alike block t' a b := by
  obtain ⟨lost, heq, hlost⟩ := h.recent
  exact ⟨h.cycle, h.drawn, ⟨lost, heq, fun d hd => (hlost d hd).trans_le hle⟩,
    fun m hm at_ hat => h.eligible m hm at_ (hle.trans hat)⟩

theorem Alike.drawnAt_eq {block : BlockInclude} {t : ℤ} {a b : RotationResume}
    (h : Alike block t a b) {at_ : ℤ} (hat : t ≤ at_) :
    b.drawnAt block at_ = a.drawnAt block at_ := by
  obtain ⟨lost, heq, hlost⟩ := h.recent
  rw [RotationResume.drawnAt, RotationResume.drawnAt, heq, List.find?_append]
  have hnone : lost.find? (fun d => d.at_ == at_ && block.slots.contains d.member) = none := by
    refine List.find?_eq_none.mpr fun d hd => ?_
    have := hlost d hd
    have hne : d.at_ ≠ at_ := by omega
    simp [hne]
  rw [hnone, Option.none_or]

/-- A member that may not air has a draw in the record. -/
theorem exists_of_not_eligible {recent : List RotationDraw} {m : String} {gap : NoRepeatWithin}
    {at_ : ℤ} (h : isEligible recent m gap at_ = false) : ∃ d ∈ recent, d.member = m := by
  cases gap with
  | positions n =>
    cases n with
    | zero => simp [isEligible] at h
    | succ n =>
      simp only [isEligible, Bool.not_eq_false', List.any_eq_true, beq_iff_eq] at h
      obtain ⟨d, hd, hm⟩ := h
      exact ⟨d, List.mem_reverse.mp (List.mem_of_mem_take hd), hm⟩
  | duration g =>
    simp only [isEligible, Bool.not_eq_false', List.any_eq_true, Bool.and_eq_true,
      beq_iff_eq] at h
    obtain ⟨d, hd, ⟨hm, -⟩, -⟩ := h
    exact ⟨d, hd, hm⟩

theorem lastDrawn_append {lost recent : List RotationDraw} {m : String}
    (h : ∃ d ∈ recent, d.member = m) :
    lastDrawn (lost ++ recent) m = lost.length + lastDrawn recent m := by
  unfold lastDrawn
  rw [List.reverse_append, List.findIdx?_append]
  cases hfind : recent.reverse.findIdx? fun d => d.member == m with
  | none =>
    obtain ⟨d, hd, hm⟩ := h
    have := List.findIdx?_eq_none_iff.mp hfind d (List.mem_reverse.mpr hd)
    simp [hm] at this
  | some back =>
    obtain ⟨hlt, -⟩ := List.findIdx?_eq_some_iff_getElem.mp hfind
    rw [List.length_reverse] at hlt
    simp only [Option.some_or, List.length_append]
    omega

/-- The least is the same under a measure that only counts from further back. -/
theorem argmin_add {f g : String → ℕ} {c : ℕ} {ms : List String}
    (h : ∀ m ∈ ms, f m = c + g m) : ms.argmin f = ms.argmin g := by
  induction ms using List.reverseRecOn with
  | nil => rfl
  | append_singleton ms m ih =>
    have hm := h m (List.mem_append_right _ List.mem_cons_self)
    rw [List.argmin_concat, List.argmin_concat,
      ih fun m' hm' => h m' (List.mem_append_left _ hm')]
    cases hmin : ms.argmin g with
    | none => rfl
    | some least =>
      have hleast := h least (List.mem_append_left _ (List.argmin_mem hmin))
      simp only [hm, hleast]
      exact if_congr (by omega) rfl rfl

theorem leastRecent_append {lost recent : List RotationDraw} {ms : List String}
    (h : ∀ m ∈ ms, ∃ d ∈ recent, d.member = m) :
    leastRecent (lost ++ recent) ms = leastRecent recent ms := by
  unfold leastRecent
  rw [argmin_add fun m hm => lastDrawn_append (h m hm)]

/-- Of two records trimmed alike the longer keeps more, and what the shorter loses beside it lies
behind the horizon. -/
theorem trimDraws_append (keep : Option ℕ) (horizon : Option ℤ) (lost recent : List RotationDraw) :
    ∃ lost', trimDraws keep horizon (lost ++ recent) = lost' ++ trimDraws keep horizon recent ∧
      ∀ d ∈ lost', d ∈ lost ∨ ∃ h, horizon = some h ∧ d.at_ < h := by
  induction lost with
  | nil => exact ⟨[], rfl, nofun⟩
  | cons x lost ih =>
    rw [List.cons_append, trimDraws]
    split_ifs with hdrop
    · obtain ⟨lost', heq, hall⟩ := ih
      exact ⟨lost', heq, fun d hd => (hall d hd).imp_left (List.mem_cons_of_mem _)⟩
    · have htail : ∃ more, recent = more ++ trimDraws keep horizon recent ∧
          ∀ d ∈ more, ∃ h, horizon = some h ∧ d.at_ < h := by
        have hshort : ∀ l : List RotationDraw, l.length ≤ recent.length →
            ∃ more, l = more ++ trimDraws keep horizon l ∧
              ∀ d ∈ more, ∃ h, horizon = some h ∧ d.at_ < h := by
          intro l hl
          induction l with
          | nil => exact ⟨[], rfl, nofun⟩
          | cons d l ihl =>
            rw [trimDraws]
            split_ifs with hd
            · obtain ⟨more, heq, hall⟩ := ihl (by rw [List.length_cons] at hl; omega)
              refine ⟨d :: more, by rw [List.cons_append, ← heq], ?_⟩
              refine List.forall_mem_cons.mpr ⟨?_, hall⟩
              obtain ⟨hcap, hkeep | hbehind⟩ := hd
              · exfalso
                apply hdrop
                simp only [List.length_append, List.length_cons] at hl ⊢
                refine ⟨by omega, Or.inl ?_⟩
                rw [Option.any_eq_true_iff_get] at hkeep ⊢
                obtain ⟨hsome, hlt⟩ := hkeep
                refine ⟨hsome, ?_⟩
                simp only [decide_eq_true_eq] at hlt ⊢
                omega
              · cases horizon with
                | none => simp at hbehind
                | some h => exact ⟨h, rfl, by simpa using hbehind⟩
            · exact ⟨[], rfl, nofun⟩
        exact hshort recent le_rfl
      obtain ⟨more, heq, hall⟩ := htail
      refine ⟨x :: (lost ++ more), ?_, ?_⟩
      · rw [List.cons_append, List.append_assoc, ← heq]
      · intro d hd
        rcases List.mem_cons.mp hd with rfl | hd
        · exact Or.inl List.mem_cons_self
        · rcases List.mem_append.mp hd with hd | hd
          · exact Or.inl (List.mem_cons_of_mem _ hd)
          · exact Or.inr (hall d hd)

/-- Trimming a record changes no answer from its newest draw on. -/
theorem recordDraw_isEligible (recent : List RotationDraw) (gap : NoRepeatWithin)
    (member m : String) {at_ at' : ℤ} (hat : at_ ≤ at') :
    isEligible (recordDraw recent gap member at_) m gap at' =
      isEligible (recent ++ [⟨member, at_⟩]) m gap at' := by
  rw [Bool.eq_iff_iff, isEligible_iff, isEligible_iff]
  cases gap with
  | positions n =>
    obtain ⟨more, heq, hall⟩ := trimDraws_positions (max RECENT_CAP n) (recent ++ [⟨member, at_⟩])
    simp only [Obeys, recordDraw, keepDraws]
    rcases hall with rfl | hlong
    · rw [List.nil_append] at heq
      rw [← heq]
    · conv_rhs => rw [heq, List.reverse_append,
        List.take_append_of_le_length (by rw [List.length_reverse]; omega)]
  | duration g =>
    obtain ⟨more, heq, -, hall⟩ := trimDraws_duration (at_ - g) (recent ++ [⟨member, at_⟩])
    simp only [Obeys, recordDraw, keepDraws]
    constructor
    · intro hobeys r hr hmember hle
      rw [heq] at hr
      rcases List.mem_append.mp hr with hr | hr
      · have := hall r hr
        omega
      · exact hobeys r hr hmember hle
    · intro hobeys r hr
      exact hobeys r (by rw [heq]; exact List.mem_append_right _ hr)

/-- Records that answer alike still do when both are given one more draw. -/
theorem isEligible_append {lost recent : List RotationDraw} {gap : NoRepeatWithin}
    {m : String} {at_ : ℤ} (h : isEligible recent m gap at_ = isEligible (lost ++ recent) m gap at_)
    (d : RotationDraw) : isEligible (recent ++ [d]) m gap at_ =
      isEligible (lost ++ recent ++ [d]) m gap at_ := by
  rw [Bool.eq_iff_iff, isEligible_iff, isEligible_iff] at h ⊢
  cases gap with
  | positions n =>
    cases n with
    | zero => simp [Obeys]
    | succ n =>
      simp only [Obeys, List.reverse_append, List.reverse_cons, List.reverse_nil, List.nil_append,
        List.cons_append, List.take_succ_cons, List.forall_mem_cons] at h ⊢
      refine and_congr_right fun _ => ?_
      by_cases hlong : n ≤ recent.length
      · rw [List.take_append_of_le_length (by simpa using hlong)]
      · have hall : recent.reverse.take (n + 1) = recent.reverse.take n := by
          rw [List.take_of_length_le (by simp; omega), List.take_of_length_le (by simp; omega)]
        have hmore : ∀ k, recent.reverse.length ≤ k → ∀ r ∈ recent.reverse,
            r ∈ (recent.reverse ++ lost.reverse).take k := by
          intro k hk r hr
          rw [List.take_append, List.take_of_length_le hk]
          exact List.mem_append_left _ hr
        constructor
        · intro hobeys r hr
          rw [hall] at h
          exact h.mp hobeys r (List.take_subset_take_left _ (Nat.le_succ n) hr)
        · intro hobeys r hr
          exact hobeys r (hmore n (by simp; omega) r (List.mem_of_mem_take hr))
  | duration g =>
    simp only [Obeys, List.mem_append, or_imp, forall_and] at h ⊢
    constructor
    · rintro ⟨hobeys, hlast⟩
      exact ⟨h.mp hobeys, hlast⟩
    · rintro ⟨hobeys, hlast⟩
      exact ⟨h.mpr hobeys, hlast⟩

theorem findIdx?_congr {α : Type} {p q : α → Bool} {l : List α} (h : ∀ a ∈ l, p a = q a) :
    l.findIdx? p = l.findIdx? q := by
  induction l with
  | nil => rfl
  | cons a l ih =>
    rw [List.findIdx?_cons, List.findIdx?_cons, h a List.mem_cons_self,
      ih fun b hb => h b (List.mem_cons_of_mem _ hb)]

theorem Alike.chooseRoundRobin_eq {block : BlockInclude} {t : ℤ} {a b : RotationResume}
    (h : Alike block t a b) {at_ : ℤ} (hat : t ≤ at_) (base : UInt64) :
    chooseRoundRobin block b base (fun m => isEligible b.recent m block.gap at_) =
      chooseRoundRobin block a base (fun m => isEligible a.recent m block.gap at_) := by
  obtain ⟨lost, hrecent, -⟩ := h.recent
  dsimp only [chooseRoundRobin]
  rw [h.drawn, h.cycle]
  set drawn := if (block.slots.all fun m => a.drawn.contains m) = true then [] else a.drawn
  set cycle := if (block.slots.all fun m => a.drawn.contains m) = true then a.cycle + 1 else a.cycle
  set remaining := (cycleOrder block base cycle).filter fun m => !drawn.contains m with hremaining
  have hmem : ∀ m ∈ remaining, m ∈ block.slots := by
    intro m hm
    exact mem_cycleOrder.mp (List.mem_filter.mp hm).1
  have hfind : remaining.findIdx? (fun m => isEligible b.recent m block.gap at_) =
      remaining.findIdx? fun m => isEligible a.recent m block.gap at_ :=
    findIdx?_congr fun m hm => h.eligible m (hmem m hm) at_ hat
  rw [hfind]
  cases hnone : remaining.findIdx? fun m => isEligible a.recent m block.gap at_ with
  | some i => rfl
  | none =>
    have hleast : leastRecent b.recent remaining = leastRecent a.recent remaining := by
      rw [hrecent, leastRecent_append]
      intro m hm
      rw [← hfind] at hnone
      exact exists_of_not_eligible (List.findIdx?_eq_none_iff.mp hnone m hm)
    simp only [hleast]

theorem Alike.chooseRandom_eq {block : BlockInclude} {t : ℤ} {a b : RotationResume}
    (h : Alike block t a b) {at_ : ℤ} (hat : t ≤ at_) (base start : UInt64) :
    chooseRandom block b base start (fun m => isEligible b.recent m block.gap at_) =
      chooseRandom block a base start (fun m => isEligible a.recent m block.gap at_) := by
  obtain ⟨lost, hrecent, -⟩ := h.recent
  dsimp only [chooseRandom]
  have hfilter : block.slots.filter (fun m => isEligible b.recent m block.gap at_) =
      block.slots.filter fun m => isEligible a.recent m block.gap at_ :=
    List.filter_congr fun m hm => h.eligible m hm at_ hat
  rw [hfilter, h.drawn, h.cycle]
  split_ifs with hempty
  · have hleast : leastRecent b.recent block.slots = leastRecent a.recent block.slots := by
      rw [hrecent, leastRecent_append]
      intro m hm
      rw [← hfilter, List.isEmpty_iff, List.filter_eq_nil_iff] at hempty
      exact exists_of_not_eligible (by simpa using hempty m hm)
    rw [hleast]
  · rfl

theorem Alike.recordDraw {block : BlockInclude} {t : ℤ} {a b : RotationResume}
    (h : Alike block t a b) {at_ : ℤ} (hat : t ≤ at_) (member : String) (cycle : ℕ)
    (drawn : List String) : Alike block at_
      ⟨cycle, drawn, EtvStation.recordDraw a.recent block.gap member at_⟩
      ⟨cycle, drawn, EtvStation.recordDraw b.recent block.gap member at_⟩ := by
  obtain ⟨lost, hrecent, hlost⟩ := h.recent
  refine ⟨rfl, rfl, ?_, fun m hm at' hat' => ?_⟩
  · have htrim : ∀ horizon : Option ℤ, (∀ h, horizon = some h → h ≤ at_) → ∃ lost',
        trimDraws (keepDraws block.gap) horizon (lost ++ (b.recent ++ [⟨member, at_⟩])) =
          lost' ++ trimDraws (keepDraws block.gap) horizon (b.recent ++ [⟨member, at_⟩]) ∧
        ∀ d ∈ lost', d.at_ < at_ := by
      intro horizon hhorizon
      obtain ⟨lost', heq, hall⟩ :=
        trimDraws_append (keepDraws block.gap) horizon lost (b.recent ++ [⟨member, at_⟩])
      refine ⟨lost', heq, fun d hd => ?_⟩
      rcases hall d hd with hd | ⟨h, hh, hlt⟩
      · have := hlost d hd
        omega
      · have := hhorizon h hh
        omega
    unfold EtvStation.recordDraw
    rw [hrecent, List.append_assoc]
    revert htrim
    cases block.gap with
    | duration d =>
      intro htrim
      have hbound : ∀ h, some (at_ - (d : ℤ)) = some h → h ≤ at_ := by
        intro h hh
        cases hh
        omega
      exact htrim _ hbound
    | positions n =>
      intro htrim
      have hbound : ∀ h, (none : Option ℤ) = some h → h ≤ at_ := by
        intro h hh
        cases hh
      exact htrim _ hbound
  · rw [recordDraw_isEligible _ _ _ _ hat', recordDraw_isEligible _ _ _ _ hat', hrecent]
    refine isEligible_append ?_ _
    rw [← hrecent]
    exact h.eligible m hm at' (hat.trans hat')

/-- Records told apart by nothing draw alike, and stay so. -/
theorem Alike.draw {name : String} {block : BlockInclude} {t : ℤ} {a b : RotationResume}
    (h : Alike block t a b) (seed : UInt64) (start : ℤ) {at_ : ℤ} (hat : t ≤ at_) :
    (EtvStation.draw name block b seed start at_).1 =
        (EtvStation.draw name block a seed start at_).1 ∧
      Alike block at_ (EtvStation.draw name block a seed start at_).2
        (EtvStation.draw name block b seed start at_).2 := by
  have hdrawnAt := h.drawnAt_eq hat
  unfold EtvStation.draw
  rw [hdrawnAt]
  cases a.drawnAt block at_ with
  | some d => exact ⟨rfl, h.mono hat⟩
  | none =>
    cases hselect : block.selects with
    | roundRobin =>
      simp only [h.chooseRoundRobin_eq hat]
      exact ⟨trivial, h.recordDraw hat _ _ _⟩
    | random =>
      simp only [h.chooseRandom_eq hat]
      exact ⟨trivial, h.recordDraw hat _ _ _⟩

structure AlikeAll (slots : BTreeMap String BlockInclude) (t : ℤ)
    (a b : BTreeMap String RotationResume) : Prop where
  keyed : a.Keyed ∧ b.Keyed
  rotations : ∀ name block, slots.get name = some block → block.isRotation →
    Alike block t (stateOf a name) (stateOf b name)

/-- Both run out of fuel, or both answer the same and leave maps that are alike. -/
def SameAnswer {α : Type} (slots : BTreeMap String BlockInclude) (t : ℤ)
    (a b : Option (α × BTreeMap String RotationResume)) : Prop :=
  (a = none ∧ b = none) ∨
    ∃ answer a' b', a = some (answer, a') ∧ b = some (answer, b') ∧ AlikeAll slots t a' b'

theorem AlikeAll.resolveChain {slots : BTreeMap String BlockInclude} (seed : UInt64) (start : ℤ)
    {t at_ : ℤ} (hat : t ≤ at_) (fuel : ℕ) (current : String)
    {a b : BTreeMap String RotationResume} (h : AlikeAll slots t a b) :
    SameAnswer slots at_ (EtvStation.resolveChain slots seed start at_ fuel current a)
      (EtvStation.resolveChain slots seed start at_ fuel current b) := by
  induction fuel generalizing current a b t with
  | zero => exact Or.inl ⟨rfl, rfl⟩
  | succ fuel ih =>
    rw [EtvStation.resolveChain, EtvStation.resolveChain]
    cases hb : (slots.get current).filter (·.isRotation) with
    | none =>
      right
      exact ⟨[], a, b, rfl, rfl, h.keyed, fun name block hget hrot =>
        (h.rotations name block hget hrot).mono hat⟩
    | some block =>
      obtain ⟨hget, hrotation⟩ := Option.filter_eq_some_iff.mp hb
      have hrotations := h.rotations current block hget hrotation
      obtain ⟨hreason, halike⟩ := @Alike.draw current _ _ _ _ hrotations seed start _ hat
      have hnext : AlikeAll slots at_
          (a.put current (EtvStation.draw current block (stateOf a current) seed start at_).2)
          (b.put current (EtvStation.draw current block (stateOf b current) seed start at_).2) := by
        refine ⟨⟨BTreeMap.put_keyed h.keyed.1 _ _, BTreeMap.put_keyed h.keyed.2 _ _⟩, ?_⟩
        intro name block' hget' hrot'
        unfold stateOf
        rw [BTreeMap.get_put h.keyed.1, BTreeMap.get_put h.keyed.2]
        split_ifs with hname
        · subst hname
          obtain rfl := Option.some.inj (hget.symm.trans hget')
          exact halike
        · exact (h.rotations name block' hget' hrot').mono hat
      rcases ih le_rfl (EtvStation.draw current block (stateOf a current) seed start at_).1.member
        hnext with ⟨hnone, hnone'⟩ | ⟨chain, a', b', hsome, hsome', hsame⟩
      · left
        rw [← hreason] at hnone'
        simp only [stateOf] at hnone hnone'
        simp [hnone, hnone']
      · right
        refine ⟨(EtvStation.draw current block (stateOf a current) seed start at_).1 :: chain,
          a', b', ?_, ?_, hsame⟩
        · simp only [stateOf] at hsome ⊢
          simp [hsome]
        · rw [← hreason] at hsome' ⊢
          simp only [stateOf] at hsome' ⊢
          simp [hsome']

/-- Placements one after another are drawn alike from maps that are alike. -/
theorem AlikeAll.resolveAll {slots : BTreeMap String BlockInclude} (seedAt : ℤ → UInt64)
    (fuel : ℕ) {later : List Placement} (hsorted : (later.map (·.start)).Pairwise (· < ·)) {t : ℤ}
    (hat : ∀ p ∈ later, t ≤ p.at_) {a b : BTreeMap String RotationResume}
    (h : AlikeAll slots t a b) :
    (EtvStation.resolveAll slots seedAt fuel later b).map Prod.fst =
      (EtvStation.resolveAll slots seedAt fuel later a).map Prod.fst := by
  induction later generalizing a b t with
  | nil => rfl
  | cons p later ih =>
    rw [List.map_cons, List.pairwise_cons] at hsorted
    have hone := h.resolveChain (seedAt p.at_) p.start (hat p List.mem_cons_self) fuel p.slot
    simp only [EtvStation.resolveAll, resolvePlacement]
    rcases hone with ⟨hnone, hnone'⟩ | ⟨chain, a', b', hsome, hsome', hsame⟩
    · simp [hnone, hnone']
    · have hrest := ih hsorted.2 (fun q hq => (Placement.at_lt.mpr
        (hsorted.1 q.start (List.mem_map_of_mem hq))).le) hsame
      simp only [hsome, hsome', Option.bind_eq_bind, Option.bind_some, Option.pure_def]
      cases hra : EtvStation.resolveAll slots seedAt fuel later a' with
      | none =>
        rw [hra, Option.map_none, Option.map_eq_none_iff] at hrest
        rw [hrest]
      | some ra =>
        rw [hra, Option.map_some] at hrest
        obtain ⟨rb, hrb, hfst⟩ := Option.map_eq_some_iff.mp hrest
        simp [hrb, hfst]

/-- Over a run each rotation makes its draws one after another, each for one of the placements. -/
theorem resolveAll_drawsOn {slots : BTreeMap String BlockInclude} {seedAt : ℤ → UInt64}
    {name : String} {block : BlockInclude} (hget : slots.get name = some block)
    (hne : block.slots ≠ []) {fuel : ℕ} {ps : List Placement} {s : RotationResume}
    {before after : BTreeMap String RotationResume} {run : List (Placement × List DrawReason)}
    {ds : List (Placement × DrawReason)} (hkeyed : before.Keyed)
    (hds : DrawsOn name block seedAt s ds (stateOf before name))
    (h : resolveAll slots seedAt fuel ps before = some (run, after)) :
    DrawsOn name block seedAt s (ds ++ drawsOf name run) (stateOf after name) ∧
      ∀ d ∈ drawsOf name run, d.1 ∈ ps := by
  induction ps generalizing before run ds with
  | nil =>
    simp only [resolveAll, Option.some.injEq, Prod.mk.injEq] at h
    obtain ⟨rfl, rfl⟩ := h
    exact ⟨by simpa [drawsOf] using hds, fun d hd => by simp [drawsOf] at hd⟩
  | cons p ps ih =>
    simp only [resolveAll, Option.bind_eq_bind, Option.pure_def, Option.bind_eq_some_iff,
      Prod.exists, Option.some.injEq, Prod.mk.injEq] at h
    obtain ⟨chain, mid, hone, rest, after', hrest, rfl, rfl⟩ := h
    have hvisit := resolveChain_visit hget hne hkeyed hone
    have hrun : drawsOf name ((p, chain) :: rest) =
        (drawsAt name chain).map (fun reason => (p, reason)) ++ drawsOf name rest := by
      simp [drawsOf]
    have hmid : DrawsOn name block seedAt s
        (ds ++ (drawsAt name chain).map fun reason => (p, reason)) (stateOf mid name) := by
      rcases hvisit.drawn with ⟨hnil, hsame⟩ | ⟨hfresh, hdrawn, hafter⟩
      · rw [hnil, List.map_nil, List.append_nil]
        unfold stateOf
        rw [hsame]
        exact hds
      · unfold stateOf
        rw [hdrawn, hafter]
        exact hds.snoc p hfresh
    obtain ⟨hall, hmem⟩ := ih hvisit.keyed hmid hrest
    rw [hrun, ← List.append_assoc]
    refine ⟨hall, fun d hd => ?_⟩
    rcases List.mem_append.mp hd with hd | hd
    · obtain ⟨reason, -, rfl⟩ := List.mem_map.mp hd
      exact List.mem_cons_self
    · exact List.mem_cons_of_mem _ (hmem d hd)

theorem resolveChain_keyed {slots : BTreeMap String BlockInclude} {seed : UInt64}
    {start at_ : ℤ} {fuel : ℕ} {current : String} {before after : BTreeMap String RotationResume}
    {chain : List DrawReason} (hkeyed : before.Keyed)
    (h : resolveChain slots seed start at_ fuel current before = some (chain, after)) :
    after.Keyed := by
  induction fuel generalizing current before chain with
  | zero => simp [resolveChain] at h
  | succ fuel ih =>
    rw [resolveChain] at h
    cases hb : (slots.get current).filter (·.isRotation) with
    | none =>
      simp only [hb, Option.some.injEq, Prod.mk.injEq] at h
      exact h.2 ▸ hkeyed
    | some block =>
      simp only [hb, Option.bind_eq_bind, Option.pure_def, Option.bind_eq_some_iff,
        Prod.exists, Option.some.injEq, Prod.mk.injEq] at h
      obtain ⟨rest, after', hrest, -, rfl⟩ := h
      exact ih (BTreeMap.put_keyed hkeyed _ _) hrest

theorem resolveAll_keyed {slots : BTreeMap String BlockInclude} {seedAt : ℤ → UInt64}
    {fuel : ℕ} {ps : List Placement} {before after : BTreeMap String RotationResume}
    {run : List (Placement × List DrawReason)} (hkeyed : before.Keyed)
    (h : resolveAll slots seedAt fuel ps before = some (run, after)) : after.Keyed := by
  induction ps generalizing before run with
  | nil =>
    simp only [resolveAll, Option.some.injEq, Prod.mk.injEq] at h
    exact h.2 ▸ hkeyed
  | cons p ps ih =>
    simp only [resolveAll, resolvePlacement, Option.bind_eq_bind, Option.pure_def,
      Option.bind_eq_some_iff, Prod.exists, Option.some.injEq, Prod.mk.injEq] at h
    obtain ⟨chain, mid, hone, rest, after', hrest, -, rfl⟩ := h
    exact ih (resolveChain_keyed hkeyed hone) hrest

/-- A record may lose draws without an answer changing exactly when none of them is read. -/
theorem unread_iff {block : BlockInclude} {t : ℤ} {lost kept : List RotationDraw}
    (hpast : ∀ d ∈ lost ++ kept, d.at_ < t) : Unread block t lost kept ↔
      ∀ m ∈ block.slots, ∀ at_, t ≤ at_ → isEligible kept m block.gap at_ =
        isEligible (lost ++ kept) m block.gap at_ := by
  have hanswer : ∀ m at_, isEligible kept m block.gap at_ =
      isEligible (lost ++ kept) m block.gap at_ ↔
        (Obeys block.gap kept m at_ ↔ Obeys block.gap (lost ++ kept) m at_) := by
    intro m at_
    rw [Bool.eq_iff_iff, isEligible_iff, isEligible_iff]
  simp only [hanswer, Unread, Obeys]
  cases block.gap with
  | positions n =>
    dsimp only
    have hsub : ∀ d ∈ kept.reverse.take n, d ∈ (lost ++ kept).reverse.take n := by
      intro d hd
      rw [List.reverse_append, List.take_append]
      exact List.mem_append_left _ hd
    constructor
    · intro hread m hm at_ _
      refine ⟨fun hobeys d hd hmember => ?_, fun hobeys d hd => hobeys d (hsub d hd)⟩
      obtain ⟨h, hh, hsame⟩ := hread d hd (hmember ▸ hm)
      by_cases hlong : n ≤ kept.length
      · rw [List.reverse_append, List.take_append_of_le_length (by simpa using hlong)] at hd
        exact hobeys d hd hmember
      · apply hobeys h _ (hsame.trans hmember)
        rw [List.take_of_length_le (by simp; omega)]
        exact List.mem_reverse.mpr hh
    · intro hsame d hd hm
      by_contra hnone
      push Not at hnone
      refine (hsame d.member hm t le_rfl).mp (fun h hh => ?_) d hd rfl
      exact hnone h (List.mem_reverse.mp (List.mem_of_mem_take hh))
  | duration g =>
    dsimp only
    constructor
    · intro hread m hm at_ hat
      refine ⟨fun hobeys r hr hmember hle => ?_,
        fun hobeys r hr => hobeys r (List.mem_append_right _ hr)⟩
      rcases List.mem_append.mp hr with hr | hr
      · by_contra hshort
        obtain ⟨h, hh, hsame, hlater⟩ := hread r hr (hmember ▸ hm) (by omega)
        have hbefore := hpast h (List.mem_append_right _ hh)
        have := hobeys h hh (hsame.trans hmember) (by omega)
        omega
      · exact hobeys r hr hmember hle
    · intro hsame d hd hm hreach
      by_contra hnone
      push Not at hnone
      have hbefore := hpast d (List.mem_append_left _ hd)
      have hobeys := (hsame d.member hm (d.at_ + g - 1) (by omega)).mp (fun h hh hmember _ => by
        have := hnone h hh hmember
        omega) d (List.mem_append_left _ hd) rfl (by omega)
      omega

/-- How many draws a rotation's record dropped to hold those made since. -/
def droppedSince (stood after : RotationResume) (since : List (Placement × DrawReason)) : ℕ :=
  stood.recent.length + since.length - after.recent.length

section Forget

variable {name : String} {block : BlockInclude} {seedAt : ℤ → UInt64}
  {stood after : RotationResume} {since : List (Placement × DrawReason)} {t : ℤ}

/-- The draws since `t` are at the end of the record, and before them what it kept of the one that
stood. -/
theorem DrawsOn.kept (hne : block.slots ≠ []) (h : DrawsOn name block seedAt stood since after)
    (hrecord : history since <:+ after.recent) :
    after.recent = stood.recent.drop (droppedSince stood after since) ++ history since := by
  obtain ⟨lost, hsplit⟩ := h.split hne
  obtain ⟨kept, hkept⟩ := hrecord
  rw [← hkept, ← List.append_assoc] at hsplit
  have hstood := List.append_cancel_right hsplit
  have hcount : droppedSince stood after since = lost.length := by
    unfold droppedSince
    have hlen := congrArg List.length hstood
    have hall := congrArg List.length hkept
    simp only [List.length_append, history, List.length_map] at hlen hall
    omega
  rw [hcount, hstood, List.drop_left]
  exact hkept.symm

theorem DrawsOn.forgetFrom (hne : block.slots ≠ [])
    (h : DrawsOn name block seedAt stood since after)
    (hrecord : history since <:+ after.recent) (hpast : ∀ d ∈ stood.recent, d.at_ < t)
    (hsince : ∀ d ∈ since, t ≤ d.1.at_) : after.forgetFrom t = { after with
      recent := stood.recent.drop (droppedSince stood after since)
      drawn := after.drawn.filter fun m => m ∉ since.map (·.2.member) } := by
  have hgone : ∀ d ∈ history since, t ≤ d.at_ := by
    intro d hd
    obtain ⟨e, he, rfl⟩ := List.mem_map.mp hd
    exact hsince e he
  rw [forgetFrom_append (h.kept hne hrecord) hgone
    fun d hd => hpast d (List.mem_of_mem_drop hd)]
  have hmembers : (history since).map (·.member) = since.map (·.2.member) := by
    rw [history, List.map_map]
    rfl
  rw [hmembers]

theorem take_append_drop_past (hpast : ∀ d ∈ stood.recent, d.at_ < t) (n : ℕ) :
    ∀ d ∈ stood.recent.take n ++ stood.recent.drop n, d.at_ < t := by
  rw [List.take_append_drop]
  exact hpast

/-- Undoable draws leave a state that is alike the one that stood. -/
theorem Undoable.alike (hne : block.slots ≠ []) (h : DrawsOn name block seedAt stood since after)
    (hrecord : history since <:+ after.recent) (hpast : ∀ d ∈ stood.recent, d.at_ < t)
    (hsince : ∀ d ∈ since, t ≤ d.1.at_)
    (hundo : Undoable block t stood since (droppedSince stood after since)) :
    Alike block t stood (after.forgetFrom t) := by
  rw [h.forgetFrom hne hrecord hpast hsince]
  have hpass : after.cycle = stood.cycle ∧
      (after.drawn.filter fun m => m ∉ since.map (·.2.member)) = stood.drawn := by
    cases hselect : block.selects with
    | roundRobin =>
      obtain ⟨hcycle, hdrawn, hnew, -⟩ := (h.roundRobin hne hselect).1 (hundo.pass hselect)
      refine ⟨hcycle, ?_⟩
      have hold : (stood.drawn.filter fun m => m ∉ since.map (·.2.member)) = stood.drawn := by
        refine List.filter_eq_self.mpr fun m hm => ?_
        simp only [decide_eq_true_eq, List.mem_map, not_exists, not_and]
        intro d hd hmember
        exact hnew d hd (hmember ▸ hm)
      have hgone : ((since.map (·.2.member)).filter fun m => m ∉ since.map (·.2.member)) = [] := by
        refine List.filter_eq_nil_iff.mpr fun m hm => ?_
        simpa using hm
      rw [hdrawn, List.filter_append, hold, hgone, List.append_nil]
    | random =>
      obtain ⟨hcycle, hdrawn⟩ := h.random hselect
      refine ⟨hcycle, ?_⟩
      rw [hdrawn]
      refine List.filter_eq_self.mpr fun m hm => ?_
      simp only [decide_eq_true_eq, List.mem_map, not_exists, not_and]
      intro d hd hmember
      exact hundo.apart hselect d hd (hmember ▸ hm)
  have helig := (unread_iff (take_append_drop_past hpast _)).mp hundo.unread
  rw [List.take_append_drop] at helig
  refine ⟨hpass.1, hpass.2, ⟨stood.recent.take (droppedSince stood after since), ?_, ?_⟩, helig⟩
  · exact (List.take_append_drop _ _).symm
  · intro d hd
    exact hpast d (List.mem_of_mem_take hd)

theorem undoable_of_same (hne : block.slots ≠ []) (h : DrawsOn name block seedAt stood since after)
    (hrecord : history since <:+ after.recent) (hpast : ∀ d ∈ stood.recent, d.at_ < t)
    (hsince : ∀ d ∈ since, t ≤ d.1.at_)
    (hdrawn : (after.forgetFrom t).drawn = stood.drawn)
    (hcycle : (after.forgetFrom t).cycle = stood.cycle)
    (helig : ∀ m ∈ block.slots, ∀ at_, t ≤ at_ →
      isEligible (after.forgetFrom t).recent m block.gap at_ =
        isEligible stood.recent m block.gap at_) :
    Undoable block t stood since (droppedSince stood after since) := by
  rw [h.forgetFrom hne hrecord hpast hsince] at hdrawn hcycle helig
  dsimp only at hdrawn hcycle helig
  refine ⟨fun hselect => ?_, fun hselect d hd hmem => ?_, ?_⟩
  · by_contra hover
    have := (h.roundRobin hne hselect).2 (not_le.mp hover)
    omega
  · rw [← hdrawn, List.mem_filter] at hmem
    have hnot : d.2.member ∉ since.map (·.2.member) := by simpa using hmem.2
    exact hnot (List.mem_map_of_mem hd)
  · refine (unread_iff (take_append_drop_past hpast _)).mpr ?_
    rw [List.take_append_drop]
    exact helig

end Forget

theorem stateOf_forget (m : ResumeMap) (t : ℤ) (name : String) :
    stateOf (m.forgetRotationDrawsFrom t).rotations name =
      (stateOf m.rotations name).forgetFrom t := by
  have hget : ∀ rotations : BTreeMap String RotationResume,
      (rotations.mapValues fun r => r.forgetFrom t).get name =
        (rotations.get name).map fun r => r.forgetFrom t := by
    intro rotations
    induction rotations with
    | nil => rfl
    | cons e rotations ih =>
      obtain ⟨key, state⟩ := e
      simp only [BTreeMap.mapValues, BTreeMap.get, List.map_cons, List.lookup_cons] at ih ⊢
      cases name == key with
      | true => rfl
      | false => exact ih
  simp only [stateOf, ResumeMap.forgetRotationDrawsFrom, hget]
  cases m.rotations.get name with
  | some state => rfl
  | none => rfl

theorem forget_keyed {m : ResumeMap} (h : m.rotations.Keyed) (t : ℤ) :
    (m.forgetRotationDrawsFrom t).rotations.Keyed := by
  simpa [ResumeMap.forgetRotationDrawsFrom, BTreeMap.Keyed, BTreeMap.mapValues,
    Function.comp_def] using h

/-- Rotations drawn on by placements before `t` and then by placements from `t` on; the record
still has every draw of the latter. -/
structure DrawnPast (slots : BTreeMap String BlockInclude) (seedAt : ℤ → UInt64) (fuel : ℕ)
    (s : BTreeMap String RotationResume) (earlier since : List Placement) (t : ℤ)
    (stood : BTreeMap String RotationResume) (run : List (Placement × List DrawReason))
    (m : ResumeMap) : Prop where
  keyed : s.Keyed
  last : ∀ name, ∀ d ∈ (stateOf s name).recent, d.at_ < t
  sorted : ((earlier ++ since).map (·.start)).Pairwise (· < ·)
  before : ∀ p ∈ earlier, p.at_ < t
  from_ : ∀ p ∈ since, t ≤ p.at_
  drawnBefore : ∃ run, resolveAll slots seedAt fuel earlier s = some (run, stood)
  drawnSince : resolveAll slots seedAt fuel since stood = some (run, m.rotations)
  record : ∀ name block, slots.get name = some block → block.isRotation →
    history (drawsOf name run) <:+ (stateOf m.rotations name).recent

/-- Forgetting the draws from `t` on undoes them exactly when every rotation's are undoable. -/
theorem forget_undoes_iff {slots : BTreeMap String BlockInclude} {seedAt : ℤ → UInt64}
    {fuel : ℕ} {s stood : BTreeMap String RotationResume} {earlier since : List Placement} {t : ℤ}
    {run : List (Placement × List DrawReason)} {m : ResumeMap}
    (h : DrawnPast slots seedAt fuel s earlier since t stood run m) :
    Undone slots t stood (m.forgetRotationDrawsFrom t).rotations ↔
      ∀ name block, slots.get name = some block → block.isRotation →
        Undoable block t (stateOf stood name) (drawsOf name run)
          (droppedSince (stateOf stood name) (stateOf m.rotations name) (drawsOf name run)) := by
  obtain ⟨first, hfirst⟩ := h.drawnBefore
  have hkeyed := resolveAll_keyed h.keyed hfirst
  have hne : ∀ block : BlockInclude, block.isRotation → block.slots ≠ [] := by
    intro block hrotation
    simpa [BlockInclude.isRotation] using hrotation
  have hpast : ∀ name block, slots.get name = some block → block.isRotation →
      ∀ d ∈ (stateOf stood name).recent, d.at_ < t := by
    intro name block hget hrotation d hd
    obtain ⟨hdraws, hmem⟩ := resolveAll_drawsOn hget (hne block hrotation) h.keyed .nil hfirst
    obtain ⟨lost, hsplit⟩ := hdraws.split (hne block hrotation)
    have hin : d ∈ (stateOf s name).recent ++ history (drawsOf name first) := by
      rw [List.nil_append] at hsplit
      rw [hsplit]
      exact List.mem_append_right _ hd
    rcases List.mem_append.mp hin with hin | hin
    · exact h.last name d hin
    · obtain ⟨e, he, rfl⟩ := List.mem_map.mp hin
      exact h.before e.1 (hmem e he)
  have hdraws : ∀ name block, slots.get name = some block → block.isRotation →
      DrawsOn name block seedAt (stateOf stood name) (drawsOf name run)
        (stateOf m.rotations name) ∧ ∀ d ∈ drawsOf name run, t ≤ d.1.at_ := by
    intro name block hget hrotation
    obtain ⟨hall, hmem⟩ := resolveAll_drawsOn hget (hne block hrotation) hkeyed .nil h.drawnSince
    exact ⟨hall, fun d hd => h.from_ d.1 (hmem d hd)⟩
  constructor
  · intro hundone name block hget hrotation
    have hdrawn := hundone.drawn name block hget hrotation
    have hcycle := hundone.cycle name block hget hrotation
    have helig := hundone.eligible name block hget hrotation
    rw [stateOf_forget] at hdrawn hcycle helig
    exact undoable_of_same (hne block hrotation) (hdraws name block hget hrotation).1
      (h.record name block hget hrotation) (hpast name block hget hrotation)
      (hdraws name block hget hrotation).2 hdrawn hcycle helig
  · intro hundo
    have halike : AlikeAll slots t stood (m.forgetRotationDrawsFrom t).rotations := by
      refine ⟨⟨hkeyed, forget_keyed (resolveAll_keyed hkeyed h.drawnSince) t⟩, ?_⟩
      intro name block hget hrotation
      rw [stateOf_forget]
      exact (hundo name block hget hrotation).alike (hne block hrotation)
        (hdraws name block hget hrotation).1 (h.record name block hget hrotation)
        (hpast name block hget hrotation) (hdraws name block hget hrotation).2
    constructor
    · intro name block hget hrotation
      exact (halike.rotations name block hget hrotation).drawn
    · intro name block hget hrotation
      exact (halike.rotations name block hget hrotation).cycle
    · intro name block hget hrotation
      exact (halike.rotations name block hget hrotation).eligible
    · intro seedAt' fuel' later hsorted hat
      exact halike.resolveAll seedAt' fuel' hsorted hat

/-- A rotation of two members, one night after another. -/
def pairSlots : BTreeMap String BlockInclude :=
  [("a", {}), ("b", {}), ("night", { slots := ["a", "b"] })]

theorem pairSlots_rotation {name : String} {block : BlockInclude}
    (hget : pairSlots.get name = some block) (hrotation : block.isRotation) :
    name = "night" ∧ block = { slots := ["a", "b"] } := by
  have hmem := (Lib.lookup_eq_some_iff_mem (by decide)).mp hget
  simp only [pairSlots, List.mem_cons, Prod.mk.injEq, List.not_mem_nil, or_false] at hmem
  rcases hmem with ⟨-, rfl⟩ | ⟨-, rfl⟩ | hnight
  · cases hrotation
  · cases hrotation
  · exact hnight

theorem firstNight_mem : -377705116800 ≤ (1000 : ℤ) ∧ (1000 : ℤ) ≤ 253402300799 := by decide
theorem secondNight_mem : -377705116800 ≤ (2000 : ℤ) ∧ (2000 : ℤ) ≤ 253402300799 := by decide
theorem thirdNight_mem : -377705116800 ≤ (3000 : ℤ) ∧ (3000 : ℤ) ≤ 253402300799 := by decide

def firstNight : Placement := ⟨"night", 1000, firstNight_mem⟩
def secondNight : Placement := ⟨"night", 2000, secondNight_mem⟩
def thirdNight : Placement := ⟨"night", 3000, thirdNight_mem⟩

/-- The nights from the second on, drawn after the first. -/
theorem nights_drawnPast {since : List Placement} {made : List RotationDraw}
    {state : RotationResume}
    (hsorted : ((firstNight :: since).map (·.start)).Pairwise (· < ·))
    (hsince : ∀ p ∈ since, secondNight.at_ ≤ p.at_)
    (h : (resolveAll pairSlots (fun _ => 7) 2 since
      [("night", ⟨0, ["a"], [⟨"a", firstNight.at_⟩]⟩)]).map
        (fun r => (history (drawsOf "night" r.1), r.2)) = some (made, [("night", state)]))
    (hrecord : made <:+ state.recent) :
    ∃ run, history (drawsOf "night" run) = made ∧
      DrawnPast pairSlots (fun _ => 7) 2 [] [firstNight] since secondNight.at_
        [("night", ⟨0, ["a"], [⟨"a", firstNight.at_⟩]⟩)] run
        { rotations := [("night", state)] } := by
  obtain ⟨⟨run, after⟩, hrun, heq⟩ := Option.map_eq_some_iff.mp h
  obtain ⟨hmade, rfl⟩ := Prod.mk.inj heq
  refine ⟨run, hmade, ?_⟩
  constructor
  · exact List.nodup_nil
  · intro name d hd
    exact absurd hd List.not_mem_nil
  · exact hsorted
  · decide
  · exact hsince
  · have hfirst : (resolveAll pairSlots (fun _ => 7) 2 [firstNight] []).map Prod.snd =
        some [("night", ⟨0, ["a"], [⟨"a", firstNight.at_⟩]⟩)] := by decide
    obtain ⟨⟨first, stood⟩, hdrawn, rfl⟩ := Option.map_eq_some_iff.mp hfirst
    exact ⟨first, hdrawn⟩
  · exact hrun
  · intro name block hget hrotation
    obtain ⟨rfl, -⟩ := pairSlots_rotation hget hrotation
    rw [hmade]
    exact hrecord

/-- The third night opens the next pass. Forgetting it and the second takes both members out of
that pass, and leaves the cycle at 1 where it was 0 with one member drawn. -/
theorem nights_not_undone : ∃ run m,
    DrawnPast pairSlots (fun _ => 7) 2 [] [firstNight] [secondNight, thirdNight] secondNight.at_
        [("night", ⟨0, ["a"], [⟨"a", firstNight.at_⟩]⟩)] run m ∧
      ¬ Undone pairSlots secondNight.at_ [("night", ⟨0, ["a"], [⟨"a", firstNight.at_⟩]⟩)]
        (m.forgetRotationDrawsFrom secondNight.at_).rotations := by
  obtain ⟨run, -, hpast⟩ := @nights_drawnPast [secondNight, thirdNight]
    [⟨"b", secondNight.at_⟩, ⟨"a", thirdNight.at_⟩]
    ⟨1, ["a"], [⟨"a", firstNight.at_⟩, ⟨"b", secondNight.at_⟩, ⟨"a", thirdNight.at_⟩]⟩
    (by decide) (by decide) (by decide) (by decide)
  refine ⟨run, _, hpast, fun hundone => ?_⟩
  have hcycle := hundone.cycle "night" { slots := ["a", "b"] } rfl rfl
  revert hcycle
  decide

/-- The second night alone goes on with the pass, and is undone. -/
theorem forget_undoes_night : ∃ m : ResumeMap,
    Undone pairSlots secondNight.at_ [("night", ⟨0, ["a"], [⟨"a", firstNight.at_⟩]⟩)]
      (m.forgetRotationDrawsFrom secondNight.at_).rotations := by
  obtain ⟨run, hmade, hpast⟩ := @nights_drawnPast [secondNight] [⟨"b", secondNight.at_⟩]
    ⟨0, ["a", "b"], [⟨"a", firstNight.at_⟩, ⟨"b", secondNight.at_⟩]⟩
    (by decide) (by decide) (by decide) (by decide)
  refine ⟨_, (forget_undoes_iff hpast).mpr fun name block hget hrotation => ?_⟩
  obtain ⟨rfl, rfl⟩ := pairSlots_rotation hget hrotation
  have hlen : (drawsOf "night" run).length = 1 := by
    have := congrArg List.length hmade
    simpa [history] using this
  refine ⟨fun _ => ?_, nofun, ?_⟩
  · rw [hlen]
    decide
  · intro d hd
    simp at hd

end EtvStation
