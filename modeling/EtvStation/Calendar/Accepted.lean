import EtvStation.Calendar.Schedule
import EtvStation.Ingest.Identity
import EtvStation.Lib.Dfs
import EtvStation.Resolve.Unaired

/-! What is checked of a rule's slots and schedules when a config is loaded, and what the calendar
of a rule that passes can rely on. -/
namespace EtvStation.Resolve

open Ingest (isWhitespace)

/-- What the checks read of a rule: its any-time blocks, its slots and its schedules, and which
other keys the block at an index sets. -/
structure SlotConfig where
  blocks : List EtvStation.BlockInclude
  slots : BTreeMap String EtvStation.BlockInclude
  keyed : slots.Keyed
  schedules : List Schedule := []
  sets : ℕ → List String := fun _ => []

/-- The minutes a range covers, one or two spans of a day. -/
def ClockRange.spans (r : ClockRange) : List (ℕ × ℕ) :=
  if r.wraps then [(r.start, 1440), (0, r.end_)] else [(r.start, r.end_)]

def twoDigits (n : ℕ) : String := if n < 10 then s!"0{n}" else s!"{n}"

def fmtClock (minute : ℕ) : String := s!"{twoDigits (minute / 60)}:{twoDigits (minute % 60)}"

def ClockRange.text (r : ClockRange) : String := s!"{fmtClock r.start}..{fmtClock r.end_}"

def ClockRange.overlaps (a b : ClockRange) : Bool :=
  a.spans.any fun (s1, e1) => b.spans.any fun (s2, e2) => s1 < e2 && s2 < e1

def refuse (condition : Bool) (message : String) : Except String Unit :=
  if condition then .error message else .ok ()

/-- Turn a config down where something of the kind is found. -/
def refuseSome {α : Type} (found : Option α) (message : α → String) : Except String Unit :=
  match found with
  | some a => .error (message a)
  | none => .ok ()

/-- The keys of a body, which a rotation airs none of. -/
def BODY_KEYS : List String := ["entries", "pools", "pattern", "sequencer"]

/-- The keys a rotation reads none of. -/
def UNREAD_KEYS : List String :=
  ["filter", "duplicates", "align", "min_fill", "fill", "overlay", "program", "guide", "tracks",
    "fallback", "cycles"]

def containsItself (name : String) (chain : List String) : String :=
  s!"slot {name.quote} contains itself: " ++ String.intercalate " -> " chain

namespace SlotConfig

variable (c : SlotConfig)

def slotRule (tz : Zone) : SlotRule := ⟨c.blocks.length, c.slots, c.schedules, tz⟩

def allBlocks : List EtvStation.BlockInclude := c.blocks ++ c.slots.map Prod.snd

def slotName (idx : ℕ) : Option String :=
  if idx < c.blocks.length then none else (c.slots[idx - c.blocks.length]?).map Prod.fst

def blockLabel (idx : ℕ) : String :=
  match c.slotName idx with
  | some name => s!"slot {name.quote}"
  | none => s!"block #{idx}"

/-- Each member is a declared slot, listed once. -/
def checkMembers : (seen : List String) → List String → Except String Unit
  | _, [] => .ok ()
  | seen, m :: ms =>
    if (c.slots.get m).isNone then
      .error s!"lists member {m.quote}, which `rule.slots` does not declare"
    else if seen.contains m then .error s!"lists member {m.quote} twice"
    else checkMembers (m :: seen) ms

/-- `number` is the text of an `f64`. -/
def checkWeights (number : Float → String) (b : EtvStation.BlockInclude) :
    List (String × Float) → Except String Unit
  | [] => .ok ()
  | (m, w) :: ws =>
    if !b.slots.contains m then .error s!"weights {m.quote}, which is not one of its `slots`"
    else if !w.isFinite || w ≤ 0.0 then
      .error s!"weights {m.quote} at {number w}; a weight is a number above 0"
    else checkWeights number b ws

/-- Weights are read by a random selection alone. -/
def checkWeighted (number : Float → String) (b : EtvStation.BlockInclude) : Except String Unit :=
  if b.weight.isEmpty then .ok ()
  else if b.select ≠ some .random then .error "sets `weight` without `select: random`"
  else checkWeights number b b.weight

/-- The order is read by a selection in turn alone. -/
def checkOrder (b : EtvStation.BlockInclude) : Except String Unit :=
  match b.order with
  | none => .ok ()
  | some order =>
    if b.selects ≠ .roundRobin then .error "sets `order` without `select: round_robin`"
    else if order ≠ "random" then
      .error "`order` on a rotation is `random` (a seeded shuffle per cycle) or unset"
    else .ok ()

/-- A rotation airs no body of its own, and its selection keys are ones the chosen `select`
reads. -/
def validateRotation (number : Float → String) (idx : ℕ) (b : EtvStation.BlockInclude) :
    Except String Unit := do
  refuse (idx < c.blocks.length)
    "`slots` makes a rotation, which a schedule places; declare it under `rule.slots`"
  refuseSome (BODY_KEYS.find? (c.sets idx).contains) fun field =>
    s!"sets both `slots:` and `{field}:`; a rotation draws a member slot and airs no body of its own"
  refuseSome (UNREAD_KEYS.find? (c.sets idx).contains) fun field =>
    s!"sets `{field}:` on a rotation, which reads none of it; set `{field}:` on the member slots instead"
  c.checkMembers [] b.slots
  checkWeighted number b
  checkOrder b
  refuse (b.constraints.any fun k => k.separateBy.isSome || k.separateMinGap.isSome)
    "a rotation takes only `constraints.no_repeat_within`"

/-- The checks of each block that read `slots` and its selection keys. -/
def validateBlock (number : Float → String) (idx : ℕ) (b : EtvStation.BlockInclude) :
    Except String Unit :=
  if b.isRotation then c.validateRotation number idx b
  else if b.select.isSome || !b.weight.isEmpty then
    .error "`select` and `weight` choose among `slots`, and this block lists none"
  else .ok ()

def validateBlocks (number : Float → String) : List (EtvStation.BlockInclude × ℕ) →
    Except String Unit
  | [] => .ok ()
  | (b, idx) :: rest => do
    (c.validateBlock number idx b).mapError fun message => s!"{c.blockLabel idx}: {message}"
    validateBlocks number rest

def members (name : String) : List String := ((c.slots.get name).map (·.slots)).getD []

/-- Every name a chain of members can come to. -/
def names : List String := c.slots.map Prod.fst ++ c.slots.flatMap fun e => e.2.slots

/-- No rotation lists itself, directly or through a chain. The search's depth is bounded by the
names there are. -/
def validateRotationCycles : Except String Unit :=
  match Lib.Dfs.visitAll (Lib.Dfs.visit c.members (c.names.length + 1) []) []
      (c.slots.map Prod.fst) with
  | some (.error chain) =>
    .error (containsItself (chain.getLastD "") chain)
  | _ => .ok ()

/-- The first two ranges that share a minute. -/
def overlapping : List ClockRange → Option (ClockRange × ClockRange)
  | [] => none
  | a :: rest => ((rest.find? a.overlaps).map fun b => (a, b)).or (overlapping rest)

def validateSchedule (seen : List String) (idx : ℕ) (s : Schedule) : Except String Unit := do
  let label := s!"schedule {s.name.quote}"
  refuse (s.name.toList.all isWhitespace) s!"schedule #{idx} has no name"
  refuse (seen.contains s.name) s!"{label} is declared twice"
  refuse s.hours.isEmpty (label ++ " places no hours; give it `hours: \x7b\"20..23\": <slot>\x7d`")
  refuseSome ((s.hours.map Prod.snd).find? fun slot => (c.slots.get slot).isNone) fun slot =>
    s!"{label} places slot {slot.quote}, which `rule.slots` does not declare"
  refuseSome (overlapping (s.hours.map Prod.fst)) fun (a, b) =>
    s!"{label} places {a.text} and {b.text}, which overlap; a minute airs one slot"

def validateEach : (seen : List String) → List (Schedule × ℕ) → Except String Unit
  | _, [] => .ok ()
  | seen, (s, idx) :: rest => do
    c.validateSchedule seen idx s
    validateEach (s.name :: seen) rest

def placed : List String := c.schedules.flatMap fun s => s.hours.map Prod.snd

def drawn : List String := c.slots.flatMap fun e => e.2.slots

/-- The first block that authors a number of cycles, on a channel with schedules. -/
def counted : Option ℕ :=
  if c.schedules.isEmpty then none
  else (List.range c.allBlocks.length).find? fun idx => (c.sets idx).contains "cycles"

/-- The first slot that no schedule places and no rotation draws. -/
def unplaced : Option String :=
  (c.slots.map Prod.fst).find? fun name => !c.placed.contains name && !c.drawn.contains name

def validateSchedules : Except String Unit := do
  refuseSome c.counted fun idx =>
    s!"{c.blockLabel idx} sets `cycles`, which would run it past the next schedule boundary; a channel with `rule.schedules` bounds every block by the schedule instead"
  c.validateEach [] c.schedules.zipIdx
  refuseSome c.unplaced fun name =>
    s!"slot {name.quote} is placed by no schedule, so it would never air"

def validate (number : Float → String) : Except String Unit := do
  c.validateBlocks number c.allBlocks.zipIdx
  c.validateRotationCycles
  c.validateSchedules

end SlotConfig

/-- The answer with any rotation drawn down to the member that airs: an error where the program
panics, `none` when the fuel runs out first. -/
def SlotRule.onAirDrawn (rule : SlotRule) (seedAt : ℤ → UInt64) (fuel : ℕ) (at_ : ℤ)
    (rotations : BTreeMap String RotationResume) :
    Option (Except String (OnAir × BTreeMap String RotationResume)) :=
  match rule.onAir at_ with
  | .slot slot _ (some start) =>
    let at_ := fromUnixTimestamp start
    (resolveChain rule.slots (seedAt at_) start at_ fuel slot rotations).map
      fun (chain, rotations) =>
        match chain.getLast? with
        | none => .error "a draw has at least one step"
        | some leaf =>
          match rule.slotIndex leaf.member with
          | none => .error "a drawn member is a declared slot"
          | some index => .ok (.slot leaf.member index (some start), rotations)
  | other => some (.ok (other, rotations))

open Lib.Dfs (Leads Loop Ends)

section Cycles

variable {c : SlotConfig}

theorem SlotConfig.get_eq_some {name : String} {b : EtvStation.BlockInclude} :
    c.slots.get name = some b ↔ (name, b) ∈ c.slots :=
  Lib.lookup_eq_some_iff_mem c.keyed

theorem SlotConfig.mem_members {name m : String} :
    m ∈ c.members name ↔ ∃ b, (name, b) ∈ c.slots ∧ m ∈ b.slots := by
  unfold SlotConfig.members
  cases hget : c.slots.get name with
  | none =>
    refine ⟨fun h => absurd h List.not_mem_nil, ?_⟩
    rintro ⟨b, hb, -⟩
    rw [SlotConfig.get_eq_some.mpr hb] at hget
    cases hget
  | some b =>
    refine ⟨fun h => ⟨b, SlotConfig.get_eq_some.mp hget, h⟩, ?_⟩
    rintro ⟨b', hb, hm⟩
    rw [SlotConfig.get_eq_some.mpr hb] at hget
    exact Option.some.inj hget ▸ hm

theorem SlotConfig.mem_names {name m : String} (h : m ∈ c.members name) :
    name ∈ c.slots.map Prod.fst ∧ m ∈ c.names := by
  obtain ⟨b, hb, hm⟩ := SlotConfig.mem_members.mp h
  exact ⟨List.mem_map_of_mem hb, List.mem_append_right _ (List.mem_flatMap.mpr ⟨_, hb, hm⟩)⟩

/-- The search either clears every slot, or stops on a loop. -/
theorem visitAll_slots (c : SlotConfig) :
    (∃ done, Lib.Dfs.visitAll (Lib.Dfs.visit c.members (c.names.length + 1) []) []
        (c.slots.map Prod.fst) = some (.ok done) ∧
      ∀ name ∈ c.slots.map Prod.fst, Ends c.members name) ∨
    ∃ chain, Lib.Dfs.visitAll (Lib.Dfs.visit c.members (c.names.length + 1) []) []
        (c.slots.map Prod.fst) = some (.error chain) ∧ Loop c.members chain := by
  have hfuel : c.names.toFinset.card < c.names.length + 1 :=
    Nat.lt_succ_of_le (List.toFinset_card_le _)
  have hnodes : ∀ a ∈ c.names.toFinset, ∀ b ∈ c.members a, b ∈ c.names.toFinset :=
    fun a _ b hb => List.mem_toFinset.mpr (SlotConfig.mem_names hb).2
  have hkeys : ∀ a ∈ c.slots.map Prod.fst, a ∈ c.names.toFinset :=
    fun a ha => List.mem_toFinset.mpr (List.mem_append_left _ ha)
  exact Lib.Dfs.visitAll_exact hnodes hkeys hfuel

theorem validateRotationCycles_acyclic (h : c.validateRotationCycles = .ok ()) (name : String) :
    ¬ Relation.TransGen (Leads c.members) name name := by
  intro hname
  unfold SlotConfig.validateRotationCycles at h
  rcases visitAll_slots c with ⟨done, -, hends⟩ | ⟨chain, herror, -⟩
  · obtain ⟨m, hm, -⟩ := Relation.TransGen.head'_iff.mp hname
    exact (hends name (SlotConfig.mem_names hm).1).not_transGen hname
  · rw [herror] at h
    cases h

theorem validateRotationCycles_loop {e : String} (h : c.validateRotationCycles = .error e) :
    ∃ chain name, Loop c.members chain ∧ chain.getLast? = some name ∧
      e = containsItself name chain := by
  unfold SlotConfig.validateRotationCycles at h
  rcases visitAll_slots c with ⟨done, hok, -⟩ | ⟨chain, herror, hloop⟩
  · rw [hok] at h
    cases h
  · rw [herror] at h
    have hne : chain ≠ [] := List.ne_nil_of_length_pos (by have := hloop.long; omega)
    have hlast := List.getLast?_eq_some_getLast hne
    refine ⟨chain, _, hloop, hlast, ?_⟩
    rw [← Except.error.inj h, List.getLastD_eq_getLast?, hlast, Option.getD_some]

/-- The check of rotations is exact: it passes where no slot leads back to itself, and otherwise
names a chain of members that does. -/
theorem validateRotationCycles_exact (c : SlotConfig) :
    (c.validateRotationCycles = .ok () ↔
      ∀ name, ¬ Relation.TransGen (Leads c.members) name name) ∧
    ∀ e, c.validateRotationCycles = .error e → ∃ chain name, Loop c.members chain ∧
      chain.getLast? = some name ∧ e = containsItself name chain := by
  refine ⟨⟨validateRotationCycles_acyclic, fun hnone => ?_⟩,
    fun e he => validateRotationCycles_loop he⟩
  cases hcheck : c.validateRotationCycles with
  | ok => rfl
  | error e =>
    obtain ⟨chain, -, hloop, -⟩ := validateRotationCycles_loop hcheck
    obtain ⟨name, -, hname⟩ := hloop.transGen
    exact absurd hname (hnone name)

end Cycles

section Checked

variable {c : SlotConfig} {number : Float → String}

theorem refuseSome_ok {α : Type} {found : Option α} {message : α → String}
    (h : refuseSome found message = .ok ()) : found = none := by
  cases found with
  | none => rfl
  | some a => cases h

theorem checkMembers_ok {seen ms : List String} (h : c.checkMembers seen ms = .ok ()) :
    ∀ m ∈ ms, (c.slots.get m).isSome := by
  induction ms generalizing seen with
  | nil => simp
  | cons m ms ih =>
    rw [SlotConfig.checkMembers] at h
    split_ifs at h with hnone
    intro m' hm'
    rcases List.mem_cons.mp hm' with rfl | hm'
    · exact Option.isSome_iff_ne_none.mpr fun hget => hnone (by rw [hget]; rfl)
    · exact ih h m' hm'

theorem validateBlocks_ok {blocks : List (EtvStation.BlockInclude × ℕ)}
    (h : c.validateBlocks number blocks = .ok ()) :
    ∀ e ∈ blocks, c.validateBlock number e.2 e.1 = .ok () := by
  induction blocks with
  | nil => simp
  | cons e blocks ih =>
    obtain ⟨b, idx⟩ := e
    obtain ⟨⟨⟩, hone, hrest⟩ := Lib.bind_eq_ok.mp h
    intro e he
    rcases List.mem_cons.mp he with rfl | he
    · exact mapError_eq_ok hone
    · exact ih hrest e he

/-- The members of every slot of a config that passes are slots of its own. -/
theorem validate_members (h : c.validate number = .ok ()) {name m : String}
    (hm : m ∈ c.members name) : (c.slots.get m).isSome := by
  obtain ⟨b, hb, hm⟩ := SlotConfig.mem_members.mp hm
  obtain ⟨⟨⟩, hblocks, -⟩ := Lib.bind_eq_ok.mp h
  have hall : b ∈ c.allBlocks := List.mem_append_right _ (List.mem_map_of_mem hb)
  obtain ⟨i, hi⟩ := List.mem_iff_getElem?.mp hall
  have hblock := validateBlocks_ok hblocks (b, i) (List.mk_mem_zipIdx_iff_getElem?.mpr hi)
  have hrotation : b.isRotation = true := by
    rw [EtvStation.BlockInclude.isRotation, List.isEmpty_eq_false_iff.mpr (List.ne_nil_of_mem hm)]
    rfl
  rw [SlotConfig.validateBlock, if_pos hrotation] at hblock
  obtain ⟨⟨⟩, -, hrest⟩ := Lib.bind_eq_ok.mp hblock
  obtain ⟨⟨⟩, -, hrest⟩ := Lib.bind_eq_ok.mp hrest
  obtain ⟨⟨⟩, -, hrest⟩ := Lib.bind_eq_ok.mp hrest
  obtain ⟨⟨⟩, hmembers, -⟩ := Lib.bind_eq_ok.mp hrest
  exact checkMembers_ok hmembers m hm

theorem validate_acyclic (h : c.validate number = .ok ()) (name : String) :
    ¬ Relation.TransGen (Leads c.members) name name := by
  obtain ⟨⟨⟩, -, hrest⟩ := Lib.bind_eq_ok.mp h
  obtain ⟨⟨⟩, hcycles, -⟩ := Lib.bind_eq_ok.mp hrest
  exact validateRotationCycles_acyclic hcycles name

theorem overlapping_none {ranges : List ClockRange} (h : SlotConfig.overlapping ranges = none) :
    ranges.Pairwise fun a b => a.overlaps b = false := by
  induction ranges with
  | nil => exact List.Pairwise.nil
  | cons a rest ih =>
    rw [SlotConfig.overlapping, Option.or_eq_none_iff, Option.map_eq_none_iff] at h
    refine List.Pairwise.cons (fun b hb => ?_) (ih h.2)
    simpa using List.find?_eq_none.mp h.1 b hb

theorem validateEach_ok {seen : List String} {schedules : List (Schedule × ℕ)}
    (h : c.validateEach seen schedules = .ok ()) :
    ∀ e ∈ schedules, ∃ seen, c.validateSchedule seen e.2 e.1 = .ok () := by
  induction schedules generalizing seen with
  | nil => simp
  | cons e schedules ih =>
    obtain ⟨s, idx⟩ := e
    obtain ⟨⟨⟩, hone, hrest⟩ := Lib.bind_eq_ok.mp h
    intro e he
    rcases List.mem_cons.mp he with rfl | he
    · exact ⟨seen, hone⟩
    · exact ih hrest e he

/-- Each schedule of a config that passes places declared slots, over ranges that share no
minute. -/
theorem validate_schedule (h : c.validate number = .ok ()) {s : Schedule} (hs : s ∈ c.schedules) :
    (∀ e ∈ s.hours, (c.slots.get e.2).isSome) ∧
      (s.hours.map Prod.fst).Pairwise fun a b => a.overlaps b = false := by
  obtain ⟨⟨⟩, -, hrest⟩ := Lib.bind_eq_ok.mp h
  obtain ⟨⟨⟩, -, hschedules⟩ := Lib.bind_eq_ok.mp hrest
  obtain ⟨⟨⟩, -, hrest⟩ := Lib.bind_eq_ok.mp hschedules
  obtain ⟨⟨⟩, heach, -⟩ := Lib.bind_eq_ok.mp hrest
  obtain ⟨i, hi⟩ := List.mem_iff_getElem?.mp hs
  obtain ⟨seen, hone⟩ := validateEach_ok heach (s, i) (List.mk_mem_zipIdx_iff_getElem?.mpr hi)
  obtain ⟨⟨⟩, -, hrest⟩ := Lib.bind_eq_ok.mp hone
  obtain ⟨⟨⟩, -, hrest⟩ := Lib.bind_eq_ok.mp hrest
  obtain ⟨⟨⟩, -, hrest⟩ := Lib.bind_eq_ok.mp hrest
  obtain ⟨⟨⟩, hdeclared, hapart⟩ := Lib.bind_eq_ok.mp hrest
  refine ⟨fun e he => ?_, overlapping_none (refuseSome_ok hapart)⟩
  have hnone := List.find?_eq_none.mp (refuseSome_ok hdeclared) e.2 (List.mem_map_of_mem he)
  rwa [Bool.not_eq_true, Option.isNone_eq_false_iff] at hnone

theorem validate_placed (h : c.validate number = .ok ()) {name : String}
    (hname : name ∈ c.slots.map Prod.fst) : name ∈ c.placed ∨ name ∈ c.drawn := by
  obtain ⟨⟨⟩, -, hrest⟩ := Lib.bind_eq_ok.mp h
  obtain ⟨⟨⟩, -, hschedules⟩ := Lib.bind_eq_ok.mp hrest
  obtain ⟨⟨⟩, -, hrest⟩ := Lib.bind_eq_ok.mp hschedules
  obtain ⟨⟨⟩, -, hplaced⟩ := Lib.bind_eq_ok.mp hrest
  have hnone := List.find?_eq_none.mp (refuseSome_ok hplaced) name hname
  simp only [Bool.and_eq_true, Bool.not_eq_true', List.contains_eq_mem, decide_eq_false_iff_not,
    not_and, not_not] at hnone
  exact or_iff_not_imp_left.mpr hnone

end Checked

section Runs

variable {c : SlotConfig} {number : Float → String}

/-- Where a chain of draws ends: on a slot that draws nothing, the one it began at or a member of
the last to draw. -/
theorem resolveChain_leaf {seed : UInt64} {start at_ : ℤ} {fuel : ℕ} {current : String}
    {rotations after : BTreeMap String RotationResume} {chain : List DrawReason}
    (h : resolveChain c.slots seed start at_ fuel current rotations = some (chain, after)) :
    (chain = [] → (c.slots.get current).filter (·.isRotation) = none) ∧
    ∀ leaf, chain.getLast? = some leaf →
      (c.slots.get leaf.member).filter (·.isRotation) = none ∧
        ∃ name, leaf.member ∈ c.members name := by
  induction fuel generalizing current rotations chain with
  | zero => cases h
  | succ fuel ih =>
    rw [resolveChain] at h
    cases hb : (c.slots.get current).filter (·.isRotation) with
    | none =>
      rw [hb] at h
      obtain ⟨rfl, -⟩ := Prod.mk.inj (Option.some.inj h)
      exact ⟨fun _ => rfl, fun leaf hleaf => absurd hleaf (Option.some_ne_none leaf).symm⟩
    | some b =>
      rw [hb] at h
      simp only [Option.bind_eq_bind, Option.pure_def, Option.bind_eq_some_iff, Prod.exists,
        Option.some.injEq, Prod.mk.injEq] at h
      obtain ⟨rest, after', hrest, rfl, rfl⟩ := h
      obtain ⟨hget, hrotation⟩ := Option.filter_eq_some_iff.mp hb
      have hne : b.slots ≠ [] := by
        simpa [EtvStation.BlockInclude.isRotation] using hrotation
      obtain ⟨hstop, hlast⟩ := ih hrest
      refine ⟨fun hnil => absurd hnil (List.cons_ne_nil _ _), fun leaf hleaf => ?_⟩
      rw [List.getLast?_cons] at hleaf
      cases hrestlast : rest.getLast? with
      | none =>
        rw [hrestlast] at hleaf
        obtain rfl := Option.some.inj hleaf
        refine ⟨hstop (List.getLast?_eq_none_iff.mp hrestlast), current,
          SlotConfig.mem_members.mpr ⟨b, SlotConfig.get_eq_some.mp hget, ?_⟩⟩
        exact draw_mem current hne _ _ _ _
      | some last =>
        rw [hrestlast] at hleaf
        obtain rfl := Option.some.inj hleaf
        exact hlast _ hrestlast

/-- Draws come to an end on a config that passes, whatever is drawn. -/
theorem validate_resolves (h : c.validate number = .ok ()) : ∃ fuel, ∀ seed start at_ current
    rotations, (resolveChain c.slots seed start at_ fuel current rotations).isSome := by
  classical
  set rank : String → ℕ := fun name =>
    (c.names.toFinset.filter fun m => Relation.TransGen (Leads c.members) name m).card with hrank
  refine ⟨c.names.toFinset.card + 1, fun seed start at_ current rotations =>
    resolveChain_isSome rank (fun name b hget hrotation m hm => ?_) _ _ _ ?_⟩
  · have hlead : m ∈ c.members name :=
      SlotConfig.mem_members.mpr ⟨b, SlotConfig.get_eq_some.mp hget, hm⟩
    refine Finset.card_lt_card (Finset.ssubset_iff_of_subset (fun k hk => ?_) |>.mpr ⟨m, ?_, ?_⟩)
    · rw [Finset.mem_filter] at hk ⊢
      exact ⟨hk.1, .head hlead hk.2⟩
    · exact Finset.mem_filter.mpr ⟨List.mem_toFinset.mpr (SlotConfig.mem_names hlead).2,
        .single hlead⟩
    · exact fun hm => validate_acyclic h m (Finset.mem_filter.mp hm).2
  · exact Nat.lt_succ_of_le (Finset.card_filter_le _ _)

theorem slotIndex_isSome {tz : Zone} {name : String} (h : (c.slots.get name).isSome) :
    ∃ index b, (c.slotRule tz).slotIndex name = some index ∧ c.slots.get name = some b ∧
      c.allBlocks[index]? = some b := by
  obtain ⟨b, hb⟩ := Option.isSome_iff_exists.mp h
  have hin := SlotConfig.get_eq_some.mp hb
  cases hfind : c.slots.findIdx? (·.1 == name) with
  | none => exact absurd (List.findIdx?_eq_none_iff.mp hfind _ hin) (by simp)
  | some i =>
    obtain ⟨hlt, hname, -⟩ := List.findIdx?_eq_some_iff_getElem.mp hfind
    have heq : c.slots[i].1 = name := by simpa using hname
    have hget : c.slots.get name = some c.slots[i].2 :=
      SlotConfig.get_eq_some.mpr (heq ▸ List.getElem_mem hlt)
    refine ⟨c.blocks.length + i, b, ?_, hb, ?_⟩
    · rw [SlotRule.slotIndex, SlotConfig.slotRule, hfind]
      rfl
    · rw [SlotConfig.allBlocks, List.getElem?_append_right (Nat.le_add_right _ _),
        Nat.add_sub_cancel_left, List.getElem?_map, List.getElem?_eq_getElem hlt]
      rw [hb] at hget
      exact hget.symm ▸ rfl

/-- A range that is on at a minute covers it with one of its spans. -/
theorem startDay_span {r : ClockRange} {today yesterday : Bool} {date : ℤ} {minute : ℕ}
    (hminute : minute < 1440) (h : (r.startDay today yesterday date minute).isSome) :
    ∃ s ∈ r.spans, s.1 ≤ minute ∧ minute < s.2 := by
  unfold ClockRange.startDay at h
  unfold ClockRange.spans
  cases hwraps : r.wraps with
  | true =>
    rw [hwraps, if_pos rfl] at h
    rw [if_pos rfl]
    split_ifs at h with htoday hyesterday
    · exact ⟨(r.start, 1440), List.mem_cons_self, by simp_all⟩
    · exact ⟨(0, r.end_), List.mem_cons_of_mem _ List.mem_cons_self, by simp_all⟩
    · cases h
  | false =>
    rw [hwraps, if_neg Bool.false_ne_true] at h
    rw [if_neg Bool.false_ne_true]
    split_ifs at h with htoday
    · exact ⟨(r.start, r.end_), List.mem_cons_self, by simp_all⟩
    · cases h

theorem overlaps_comm (a b : ClockRange) : a.overlaps b = b.overlaps a := by
  refine Bool.eq_iff_iff.mpr ?_
  simp only [ClockRange.overlaps, List.any_eq_true, Bool.and_eq_true, decide_eq_true_eq]
  constructor
  · rintro ⟨s, hs, t, ht, hlt, hlt'⟩
    exact ⟨t, ht, s, hs, hlt', hlt⟩
  · rintro ⟨s, hs, t, ht, hlt, hlt'⟩
    exact ⟨t, ht, s, hs, hlt', hlt⟩

/-- At a minute of the day at most one range of a schedule is on. -/
theorem validate_apart (h : c.validate number = .ok ()) {s : Schedule} (hs : s ∈ c.schedules)
    {today yesterday : Bool} {date : ℤ} {minute : ℕ} (hminute : minute < 1440)
    {e e' : ClockRange × String} (he : e ∈ s.hours) (he' : e' ∈ s.hours)
    (hon : (e.1.startDay today yesterday date minute).isSome)
    (hon' : (e'.1.startDay today yesterday date minute).isSome) : e.1 = e'.1 := by
  have hpairs := (validate_schedule h hs).2
  by_contra hne
  have hover : e.1.overlaps e'.1 = true := by
    obtain ⟨s1, hs1, hin1⟩ := startDay_span hminute hon
    obtain ⟨s2, hs2, hin2⟩ := startDay_span hminute hon'
    unfold ClockRange.overlaps
    refine List.any_eq_true.mpr ⟨s1, hs1, List.any_eq_true.mpr ⟨s2, hs2, ?_⟩⟩
    simp only [Bool.and_eq_true, decide_eq_true_eq]
    omega
  have : Std.Symm fun a b : ClockRange => a.overlaps b = false :=
    ⟨fun a b hab => overlaps_comm b a ▸ hab⟩
  have hapart := hpairs.forall (List.mem_map_of_mem he) (List.mem_map_of_mem he') hne
  rw [hover] at hapart
  cases hapart

/-- Every slot can come on air: a schedule places it, or a slot that leads to it. -/
theorem validate_reached (h : c.validate number = .ok ()) {name : String}
    (hname : name ∈ c.slots.map Prod.fst) :
    ∃ first ∈ c.placed, Relation.ReflTransGen (Leads c.members) first name := by
  have hfinite : Finite {n // n ∈ c.names} := inferInstance
  -- An ancestor of a slot comes before it, and no slot is its own.
  set Before : {n // n ∈ c.names} → {n // n ∈ c.names} → Prop :=
    fun a b => Relation.TransGen (Leads c.members) a b
  have : Std.Irrefl Before := ⟨fun a => validate_acyclic h a⟩
  have : IsTrans _ Before := ⟨fun a b d hab hbd => hab.trans hbd⟩
  have hwf : WellFounded Before := Finite.wellFounded_of_trans_of_irrefl Before
  have hall : ∀ n : {n // n ∈ c.names}, n.1 ∈ c.slots.map Prod.fst →
      ∃ first ∈ c.placed, Relation.ReflTransGen (Leads c.members) first n := by
    intro n
    induction n using hwf.induction with
    | _ n ih =>
      intro hn
      rcases validate_placed h hn with hplaced | hdrawn
      · exact ⟨n, hplaced, .refl⟩
      · obtain ⟨⟨name, b⟩, hb, hm⟩ := List.mem_flatMap.mp hdrawn
        have hlead : Leads c.members name n := SlotConfig.mem_members.mpr ⟨b, hb, hm⟩
        have hdeclared := (SlotConfig.mem_names hlead).1
        obtain ⟨first, hfirst, hpath⟩ :=
          ih ⟨name, List.mem_append_left _ hdeclared⟩ (.single hlead) hdeclared
        exact ⟨first, hfirst, hpath.tail hlead⟩
  exact hall ⟨name, List.mem_append_left _ hname⟩ hname

/-- The answer is the any-time blocks, or a slot of the config that draws no other, under its
index among the blocks. -/
def SlotConfig.Airs (c : SlotConfig) : OnAir → Prop
  | .anyTime => True
  | .slot name index _ => ∃ b, c.slots.get name = some b ∧ b.isRotation = false ∧
      c.allBlocks[index]? = some b

/-- What the calendar answers is a slot of the config. -/
theorem onAir_slot {tz : Zone} {at_ : ℤ} {name : String} {index : ℕ} {placement : Option ℤ}
    (h : (c.slotRule tz).onAir at_ = .slot name index placement) :
    ∃ b, (c.slotRule tz).slotIndex name = some index ∧ c.slots.get name = some b ∧
      c.allBlocks[index]? = some b ∧ (placement.isSome ↔ b.isRotation = true) := by
  rw [SlotRule.onAir, SlotRule.onAirAt] at h
  cases hfound : (c.slotRule tz).order.findSome? ((c.slotRule tz).answer _ _) with
  | none =>
    rw [hfound] at h
    cases h
  | some answer =>
    rw [hfound, Option.getD_some] at h
    subst h
    obtain ⟨s, -, hanswer⟩ := List.exists_of_findSome?_eq_some hfound
    obtain ⟨⟨slot, range, startDay⟩, -, hslot⟩ := Option.bind_eq_some_iff.mp hanswer
    obtain ⟨i, hi, heq⟩ := Option.map_eq_some_iff.mp hslot
    cases heq
    have hdeclared : (c.slots.get name).isSome := by
      obtain ⟨j, hj, -⟩ := Option.map_eq_some_iff.mp hi
      have hj' : c.slots.findIdx? (·.1 == name) = some j := hj
      obtain ⟨hlt, hname, -⟩ := List.findIdx?_eq_some_iff_getElem.mp hj'
      have hin : (name, c.slots[j].2) ∈ c.slots := by
        have heq : c.slots[j].1 = name := by simpa using hname
        rw [← heq]
        exact List.getElem_mem hlt
      rw [SlotConfig.get_eq_some.mpr hin]
      rfl
    obtain ⟨index', b, hindex, hget, hblock⟩ := @slotIndex_isSome c tz _ hdeclared
    obtain rfl := Option.some.inj (hi.symm.trans hindex)
    refine ⟨b, hindex, hget, hblock, ?_⟩
    have hslots : (c.slotRule tz).slots.get name = some b := hget
    rw [hslots]
    cases hb : b.isRotation <;> simp [hb]

/-- A config that passes airs without a panic: at every instant, whatever the draws so far and the
seed, the draws come to an end at a slot of its own that draws no other; at each minute one range of
a schedule is on at most; and every slot is placed by a schedule, or drawn by a chain of rotations
from one that is. -/
theorem validate_airs (h : c.validate number = .ok ()) (tz : Zone) :
    (∃ fuel, ∀ seedAt at_ rotations, ∃ onAir after,
      (c.slotRule tz).onAirDrawn seedAt fuel at_ rotations = some (.ok (onAir, after)) ∧
        c.Airs onAir) ∧
    (∀ s ∈ c.schedules, ∀ date minute, minute < 1440 → ∀ e ∈ s.hours, ∀ e' ∈ s.hours,
      (e.1.startDay (s.matchesDay date) (s.matchesDay (date - 1)) date minute).isSome →
      (e'.1.startDay (s.matchesDay date) (s.matchesDay (date - 1)) date minute).isSome →
        e.1 = e'.1) ∧
    ∀ name ∈ c.slots.map Prod.fst, ∃ first ∈ c.placed,
      Relation.ReflTransGen (Leads c.members) first name := by
  refine ⟨?_, fun s hs date minute hminute e he e' he' hon hon' =>
    validate_apart h hs hminute he he' hon hon', fun name hname => validate_reached h hname⟩
  obtain ⟨fuel, hresolves⟩ := validate_resolves h
  refine ⟨fuel, fun seedAt at_ rotations => ?_⟩
  cases hon : (c.slotRule tz).onAir at_ with
  | anyTime => exact ⟨.anyTime, rotations, by rw [SlotRule.onAirDrawn, hon], trivial⟩
  | slot name index placement =>
    obtain ⟨b, hindex, hget, hblock, hrotation⟩ := onAir_slot hon
    cases placement with
    | none =>
      refine ⟨.slot name index none, rotations, by rw [SlotRule.onAirDrawn, hon], b, hget, ?_,
        hblock⟩
      simpa using hrotation
    | some start =>
      obtain ⟨⟨chain, after⟩, hchain⟩ := Option.isSome_iff_exists.mp (hresolves
        (seedAt (fromUnixTimestamp start)) start (fromUnixTimestamp start) name rotations)
      obtain ⟨hstop, hleaf⟩ := resolveChain_leaf hchain
      have hdraws : (c.slots.get name).filter (·.isRotation) = some b := by
        rw [hget, Option.filter_some, if_pos (hrotation.mp rfl)]
      have hslots : (c.slotRule tz).slots = c.slots := rfl
      cases hlast : chain.getLast? with
      | none =>
        rw [hstop (List.getLast?_eq_none_iff.mp hlast)] at hdraws
        cases hdraws
      | some leaf =>
        obtain ⟨hends, above, hmember⟩ := hleaf leaf hlast
        obtain ⟨index', b', hindex', hget', hblock'⟩ :=
          @slotIndex_isSome c tz _ (validate_members h hmember)
        refine ⟨.slot leaf.member index' (some start), after, ?_, b', hget', ?_, hblock'⟩
        · rw [SlotRule.onAirDrawn, hon]
          dsimp only
          rw [hslots, hchain, Option.map_some]
          dsimp only
          rw [hlast]
          dsimp only
          rw [hindex']
        · rw [hget'] at hends
          simpa using hends

end Runs

/-- Prime time on weekday evenings, drawn among the films and a series. -/
def evenings : SlotConfig where
  blocks := [{}]
  slots := primeSlots
  keyed := by
    unfold BTreeMap.Keyed
    decide
  schedules := [⟨"evenings", [], [0, 1, 2, 3, 4], [(⟨1200, 1380⟩, "prime")]⟩]

theorem validate_airs_evenings : evenings.validate (fun _ => "") = .ok () ∧ ∀ tz : Zone,
    (∃ fuel, ∀ seedAt at_ rotations, ∃ onAir after,
      (evenings.slotRule tz).onAirDrawn seedAt fuel at_ rotations = some (.ok (onAir, after)) ∧
        evenings.Airs onAir) ∧
    ∃ first ∈ evenings.placed, Relation.ReflTransGen (Leads evenings.members) first "m2" := by
  have hvalid : evenings.validate (fun _ => "") = .ok () := by decide +kernel
  refine ⟨hvalid, fun tz => ?_⟩
  obtain ⟨hairs, -, hreached⟩ := validate_airs hvalid tz
  exact ⟨hairs, hreached "m2" (by decide)⟩

end EtvStation.Resolve
