import EtvStation.Lib.Passes
import EtvStation.Resume
import EtvStation.Pattern.Roll
import EtvStation.Tz
import Mathlib.Data.List.MinMax

/-! Slot rotations: a slot that lists other slots and airs one of them per placement. A draw is
a function of the config, the channel seed, the rotation's name and its record of draws. -/
namespace EtvStation

def RECENT_CAP : ℕ := 64

/-- A `rule.slots` entry, as a rotation reads it; `weight` holds `f64`s, `order` its text. -/
structure BlockInclude where
  slots : List String := []
  select : Option Select := none
  order : Option String := none
  weight : BTreeMap String Float := []
  constraints : Option Constraints := none

def BlockInclude.isRotation (b : BlockInclude) : Bool := !b.slots.isEmpty

def BlockInclude.selects (b : BlockInclude) : Select := b.select.getD .roundRobin

def BlockInclude.gap (b : BlockInclude) : NoRepeatWithin :=
  ((b.constraints.bind (·.noRepeatWithin))).getD (.positions 0)

/-- The cursor position of a draw, or the roll and its range. -/
inductive DrawDetail where
  | none
  | cursor (position members cycle : ℕ)
  | everyMemberWithin
  | roll (roll : Float) (eligible : ℕ)

structure DrawReason where
  rotation : String
  member : String
  reused : Bool
  select : Select
  detail : DrawDetail
  skipped : List String
  relaxed : Bool

def mixSeed (a b : UInt64) : UInt64 :=
  splitmix64 (a * 0x9E3779B97F4A7C15 + b * 0xBF58476D1CE4E5B9)

/-- A `u64` as a float in `[0, 1)`. -/
def unitOf (bits : UInt64) : Float := (bits >>> 11).toFloat / ((1 : UInt64) <<< 53).toFloat

def fnv1a (s : String) : UInt64 :=
  s.toUTF8.toList.foldl (fun h b => (h ^^^ b.toUInt64) * 0x100000001b3) 0xcbf29ce484222325

/-- Whether `member` may air at `at_`, measured from the start of one draw to the start of the
next. -/
def isEligible (recent : List RotationDraw) (member : String) (gap : NoRepeatWithin)
    (at_ : ℤ) : Bool :=
  match gap with
  | .positions 0 => true
  | .positions n => !(recent.reverse.take n).any fun d => d.member == member
  | .duration d =>
    !recent.any fun r => r.member == member && r.at_ ≤ at_ && (at_ - r.at_).natAbs < d

/-- One past the place of a member's last draw, 0 for one never drawn. -/
def lastDrawn (recent : List RotationDraw) (member : String) : ℕ :=
  match recent.reverse.findIdx? fun d => d.member == member with
  | some back => recent.length - back
  | none => 0

/-- The member drawn longest ago; ties keep the order of `members`. -/
def leastRecent (recent : List RotationDraw) (members : List String) : String :=
  (members.argmin (lastDrawn recent)).getD ""

/-- The members in the order cycle `cycle` visits them. -/
def cycleOrder (block : BlockInclude) (base : UInt64) (cycle : ℕ) : List String :=
  if block.order = some "random" then
    let seed := mixSeed base (UInt64.ofNat cycle)
    (List.range' 1 (block.slots.length - 1)).reverse.foldl
      (fun order i => order.swap i ((mixSeed seed (UInt64.ofNat i)).toNat % (i + 1))) block.slots
  else block.slots

/-- The first member to use up what is left of the target. -/
def weighted (weight : String → Float) : Float → List String → Option String
  | _, [] => none
  | target, m :: ms =>
    if target - weight m < 0 then some m else weighted weight (target - weight m) ms

/-- What one placement draws, and the pass it leaves the rotation in. -/
structure Choice where
  member : String
  detail : DrawDetail
  skipped : List String := []
  relaxed : Bool := false
  cycle : ℕ
  drawn : List String

/-- `round_robin`: the first member of the pass still to come that is eligible. -/
def chooseRoundRobin (block : BlockInclude) (state : RotationResume) (base : UInt64)
    (eligible : String → Bool) : Choice :=
  let full := block.slots.all fun m => state.drawn.contains m
  let cycle := if full then state.cycle + 1 else state.cycle
  let drawn := if full then [] else state.drawn
  let remaining := (cycleOrder block base cycle).filter fun m => !drawn.contains m
  let detail := .cursor (drawn.length + 1) block.slots.length cycle
  match remaining.findIdx? eligible with
  | some i =>
    { member := remaining.getD i "", detail, skipped := remaining.take i
      cycle, drawn := drawn ++ [remaining.getD i ""] }
  | none =>
    let pick := leastRecent state.recent remaining
    { member := pick, detail, relaxed := true, cycle, drawn := drawn ++ [pick] }

/-- `random`: a weighted draw among the eligible. -/
def chooseRandom (block : BlockInclude) (state : RotationResume) (base start : UInt64)
    (eligible : String → Bool) : Choice :=
  let candidates := block.slots.filter eligible
  if candidates.isEmpty then
    { member := leastRecent state.recent block.slots, detail := .everyMemberWithin
      relaxed := true, cycle := state.cycle, drawn := state.drawn }
  else
    let weight := fun m => (block.weight.get m).getD 1.0
    let total := (candidates.map weight).foldl (· + ·) 0.0
    let roll := unitOf (mixSeed base start)
    { member := (weighted weight (roll * total) candidates).getD (candidates.getLastD "")
      detail := .roll roll candidates.length
      skipped := block.slots.filter fun m => !candidates.contains m
      cycle := state.cycle, drawn := state.drawn }

/-- `usize::MAX` under a time gap: no length is past it. -/
def keepDraws (gap : NoRepeatWithin) : Option ℕ :=
  match gap with
  | .positions n => some (max RECENT_CAP n)
  | .duration _ => none

/-- Drop the oldest draws past the cap that the gap cannot read any more. -/
def trimDraws (keep : Option ℕ) (horizon : Option ℤ) : List RotationDraw → List RotationDraw
  | [] => []
  | d :: ds =>
    if RECENT_CAP < ds.length + 1 ∧
        ((keep.any fun k => k < ds.length + 1) ∨ (horizon.any fun h => d.at_ < h)) then
      trimDraws keep horizon ds
    else d :: ds

/-- Record a draw and keep what the gap can still read. -/
def recordDraw (recent : List RotationDraw) (gap : NoRepeatWithin) (member : String)
    (at_ : ℤ) : List RotationDraw :=
  let horizon := match gap with
    | .duration d => some (at_ - d)
    | .positions _ => none
  trimDraws (keepDraws gap) horizon (recent ++ [⟨member, at_⟩])

/-- The draw a placement at `at_` already made. -/
def RotationResume.drawnAt (state : RotationResume) (block : BlockInclude) (at_ : ℤ) :
    Option RotationDraw :=
  state.recent.find? fun d => d.at_ == at_ && block.slots.contains d.member

/-- One rotation's draw for the placement starting at `start`, a unix timestamp. -/
def draw (name : String) (block : BlockInclude) (state : RotationResume) (seed : UInt64)
    (start : ℤ) (at_ : ℤ) : DrawReason × RotationResume :=
  match state.drawnAt block at_ with
  | some d => (⟨name, d.member, true, block.selects, .none, [], false⟩, state)
  | none =>
    let base := mixSeed seed (fnv1a name)
    let eligible := fun m => isEligible state.recent m block.gap at_
    let choice := match block.selects with
      | .roundRobin => chooseRoundRobin block state base eligible
      | .random =>
        chooseRandom block state base (UInt64.ofNat (start % 2 ^ 64).toNat) eligible
    (⟨name, choice.member, false, block.selects, choice.detail, choice.skipped, choice.relaxed⟩,
      ⟨choice.cycle, choice.drawn, recordDraw state.recent block.gap choice.member at_⟩)

/-- A placement of a slot: the start of a range a schedule gives it, a unix timestamp within
the years an instant can name. -/
structure Placement where
  slot : String
  start : ℤ
  start_mem : -377705116800 ≤ start ∧ start ≤ 253402300799

/-- `from_unix_timestamp`, the epoch where the timestamp is out of range. -/
def fromUnixTimestamp (start : ℤ) : ℤ :=
  if -377705116800 ≤ start ∧ start ≤ 253402300799 then start * SECOND else 0

def Placement.at_ (p : Placement) : ℤ := fromUnixTimestamp p.start

/-- Draw at each rotation from `current` down to the slot that airs; `none` when the fuel runs
out first. -/
def resolveChain (slots : BTreeMap String BlockInclude) (seed : UInt64) (start at_ : ℤ) :
    (fuel : ℕ) → String → BTreeMap String RotationResume →
      Option (List DrawReason × BTreeMap String RotationResume)
  | 0, _, _ => none
  | fuel + 1, current, rotations =>
    match (slots.get current).filter (·.isRotation) with
    | none => some ([], rotations)
    | some block => do
      let (reason, state) := draw current block ((rotations.get current).getD {}) seed start at_
      let (chain, rotations) ← resolveChain slots seed start at_ fuel reason.member
        (rotations.put current state)
      return (reason :: chain, rotations)

/-- Resolve a placement down to the slot that airs, recording every draw on the way. -/
def resolvePlacement (slots : BTreeMap String BlockInclude) (seedAt : ℤ → UInt64) (fuel : ℕ)
    (p : Placement) (rotations : BTreeMap String RotationResume) :
    Option (List DrawReason × BTreeMap String RotationResume) :=
  resolveChain slots (seedAt p.at_) p.start p.at_ fuel p.slot rotations

def resolveAll (slots : BTreeMap String BlockInclude) (seedAt : ℤ → UInt64) (fuel : ℕ) :
    List Placement → BTreeMap String RotationResume →
      Option (List (Placement × List DrawReason) × BTreeMap String RotationResume)
  | [], rotations => some ([], rotations)
  | p :: ps, rotations => do
    let (chain, rotations) ← resolvePlacement slots seedAt fuel p rotations
    let (rest, rotations) ← resolveAll slots seedAt fuel ps rotations
    return ((p, chain) :: rest, rotations)

/-- What `no_repeat_within` asks of a draw: none of the last `n` draws, or no draw within `d`. -/
def Obeys (gap : NoRepeatWithin) (history : List RotationDraw) (member : String) (at_ : ℤ) :
    Prop :=
  match gap with
  | .positions n => ∀ d ∈ history.reverse.take n, d.member ≠ member
  | .duration d => ∀ r ∈ history, r.member = member → r.at_ ≤ at_ → r.at_ + d ≤ at_

theorem isEligible_iff {history : List RotationDraw} {member : String} {gap : NoRepeatWithin}
    {at_ : ℤ} : isEligible history member gap at_ = true ↔ Obeys gap history member at_ := by
  cases gap with
  | positions n =>
    cases n with
    | zero => simp [isEligible, Obeys]
    | succ n => simp [isEligible, Obeys]
  | duration d =>
    simp only [isEligible, Obeys, Bool.not_eq_true', List.any_eq_false, Bool.and_eq_true,
      beq_iff_eq, decide_eq_true_eq, not_and, and_imp]
    refine forall₂_congr fun r _ => forall₂_congr fun _ hle => ?_
    omega

theorem mem_cycleOrder {block : BlockInclude} {base : UInt64} {cycle : ℕ} {m : String} :
    m ∈ cycleOrder block base cycle ↔ m ∈ block.slots := by
  have hfold : ∀ (steps : List ℕ) (f : ℕ → ℕ) (order : List String),
      m ∈ steps.foldl (fun order i => order.swap i (f i)) order ↔ m ∈ order := by
    intro steps f order
    induction steps generalizing order with
    | nil => rfl
    | cons i steps ih => rw [List.foldl_cons, ih, List.mem_swap]
  unfold cycleOrder
  split_ifs
  · exact hfold _ _ _
  · rfl

theorem leastRecent_mem (recent : List RotationDraw) {members : List String}
    (h : members ≠ []) : leastRecent recent members ∈ members := by
  unfold leastRecent
  cases hmin : members.argmin (lastDrawn recent) with
  | none => exact absurd (List.argmin_eq_none.mp hmin) h
  | some m => exact List.argmin_mem hmin

theorem weighted_mem {weight : String → Float} {target : Float} {ms : List String} {m : String}
    (h : weighted weight target ms = some m) : m ∈ ms := by
  induction ms generalizing target with
  | nil => simp [weighted] at h
  | cons a ms ih =>
    rw [weighted] at h
    split_ifs at h
    · exact List.mem_cons.mpr (Or.inl (Option.some.inj h).symm)
    · exact List.mem_cons_of_mem _ (ih h)

/-- A round-robin choice goes on with the pass, or opens the next one when it is full. -/
theorem chooseRoundRobin_spec {block : BlockInclude} (state : RotationResume) (base : UInt64)
    (eligible : String → Bool) (hne : block.slots ≠ []) :
    let choice := chooseRoundRobin block state base eligible
    let current := if block.slots.all fun m => state.drawn.contains m then [] else state.drawn
    choice.member ∈ block.slots ∧ choice.member ∉ current ∧
      choice.drawn = current ++ [choice.member] ∧
      (choice.relaxed = false → eligible choice.member) := by
  dsimp only [chooseRoundRobin]
  set full := block.slots.all fun m => state.drawn.contains m with hfull
  set drawn := if full = true then [] else state.drawn with hdrawn
  set cycle := if full = true then state.cycle + 1 else state.cycle
  set remaining := (cycleOrder block base cycle).filter fun m => !drawn.contains m with hrem
  have hmem : ∀ m, m ∈ remaining ↔ m ∈ block.slots ∧ m ∉ drawn := by
    intro m
    simp [hrem, mem_cycleOrder]
  have hsome : remaining ≠ [] := by
    cases hf : full with
    | true =>
      obtain ⟨m, hm⟩ := List.exists_mem_of_ne_nil _ hne
      have : m ∈ remaining := (hmem m).mpr ⟨hm, by simp [hdrawn, hf]⟩
      exact List.ne_nil_of_mem this
    | false =>
      obtain ⟨m, hm, hnot⟩ : ∃ m ∈ block.slots, m ∉ state.drawn := by
        rw [hf] at hfull
        simpa using List.all_eq_false.mp hfull.symm
      have : m ∈ remaining := (hmem m).mpr ⟨hm, by simpa [hdrawn, hf] using hnot⟩
      exact List.ne_nil_of_mem this
  cases hfind : remaining.findIdx? eligible with
  | none =>
    have hpick := (hmem _).mp (leastRecent_mem state.recent hsome)
    exact ⟨hpick.1, hpick.2, rfl, nofun⟩
  | some i =>
    obtain ⟨hlt, helig, -⟩ := List.findIdx?_eq_some_iff_getElem.mp hfind
    have hget : remaining.getD i "" = remaining[i] := by
      rw [List.getD_eq_getElem?_getD, List.getElem?_eq_getElem hlt, Option.getD_some]
    have hin := (hmem _).mp (List.getElem_mem hlt)
    rw [← hget] at hin helig
    exact ⟨hin.1, hin.2, rfl, fun _ => helig⟩

theorem chooseRandom_spec {block : BlockInclude} (state : RotationResume) (base start : UInt64)
    (eligible : String → Bool) (hne : block.slots ≠ []) :
    let choice := chooseRandom block state base start eligible
    choice.member ∈ block.slots ∧ (choice.relaxed = false → eligible choice.member) := by
  dsimp only [chooseRandom]
  split_ifs with hempty
  · exact ⟨leastRecent_mem _ hne, nofun⟩
  · have hpick : ∀ o : Option String, (∀ m, o = some m → m ∈ block.slots.filter eligible) →
        o.getD ((block.slots.filter eligible).getLastD "") ∈ block.slots.filter eligible := by
      intro o ho
      cases o with
      | some m => exact ho m rfl
      | none =>
        rw [Option.getD_none, List.getLastD_eq_getLast?]
        cases hlast : (block.slots.filter eligible).getLast? with
        | none => simp [List.getLast?_eq_none_iff.mp hlast] at hempty
        | some m => exact List.mem_of_getLast? hlast
    have hin := fun weight target => hpick (weighted weight target (block.slots.filter eligible))
      fun m hm => weighted_mem hm
    exact ⟨(List.mem_filter.mp (hin _ _)).1, fun _ => (List.mem_filter.mp (hin _ _)).2⟩

/-- What a record may have dropped without any answer about it changing. -/
def Kept (gap : NoRepeatWithin) (dropped recent : List RotationDraw) : Prop :=
  match gap with
  | .positions n => dropped = [] ∨ n ≤ recent.length
  | .duration d => ∀ r ∈ dropped, ∃ h ∈ recent, r.at_ + d < h.at_

theorem Kept.isEligible_eq {gap : NoRepeatWithin} {dropped recent : List RotationDraw}
    (h : Kept gap dropped recent) {at_ : ℤ} (hpast : ∀ r ∈ recent, r.at_ ≤ at_)
    (member : String) :
    isEligible recent member gap at_ = isEligible (dropped ++ recent) member gap at_ := by
  rw [Bool.eq_iff_iff, isEligible_iff, isEligible_iff]
  cases gap with
  | positions n =>
    simp only [Obeys]
    rcases h with rfl | hlen
    · rfl
    · rw [List.reverse_append, List.take_append_of_le_length (by simpa using hlen)]
  | duration d =>
    simp only [Obeys]
    constructor
    · intro hobeys r hr hmember hle
      rcases List.mem_append.mp hr with hr | hr
      · obtain ⟨later, hlater, hlt⟩ := h r hr
        have := hpast later hlater
        omega
      · exact hobeys r hr hmember hle
    · intro hobeys r hr
      exact hobeys r (List.mem_append.mpr (Or.inr hr))

theorem trimDraws_positions (k : ℕ) (l : List RotationDraw) :
    ∃ dropped, l = dropped ++ trimDraws (some k) none l ∧
      (dropped = [] ∨ max RECENT_CAP k ≤ (trimDraws (some k) none l).length) := by
  induction l with
  | nil => exact ⟨[], rfl, Or.inl rfl⟩
  | cons d ds ih =>
    rw [trimDraws]
    split_ifs with hdrop
    · obtain ⟨dropped, heq, hall⟩ := ih
      refine ⟨d :: dropped, by rw [List.cons_append, ← heq], Or.inr ?_⟩
      rcases hall with rfl | hall
      · simp only [Option.any_some, Option.any_none, decide_eq_true_eq, Bool.false_eq_true,
          or_false] at hdrop
        rw [List.nil_append] at heq
        rw [← heq]
        omega
      · exact hall
    · exact ⟨[], rfl, Or.inl rfl⟩

theorem trimDraws_duration (h : ℤ) (l : List RotationDraw) :
    ∃ dropped, l = dropped ++ trimDraws none (some h) l ∧
      (dropped = [] ∨ RECENT_CAP ≤ (trimDraws none (some h) l).length) ∧
      ∀ r ∈ dropped, r.at_ < h := by
  induction l with
  | nil => exact ⟨[], rfl, Or.inl rfl, nofun⟩
  | cons d ds ih =>
    rw [trimDraws]
    split_ifs with hdrop
    · obtain ⟨dropped, heq, hlong, hall⟩ := ih
      simp only [Option.any_some, Option.any_none, decide_eq_true_eq, Bool.false_eq_true,
        false_or] at hdrop
      refine ⟨d :: dropped, by rw [List.cons_append, ← heq], Or.inr ?_, ?_⟩
      · rcases hlong with rfl | hlong
        · rw [List.nil_append] at heq
          rw [← heq]
          omega
        · exact hlong
      · exact List.forall_mem_cons.mpr ⟨hdrop.2, hall⟩
    · exact ⟨[], rfl, Or.inl rfl, nofun⟩

/-- The draw just made is never the one dropped. -/
theorem mem_recordDraw (recent : List RotationDraw) (gap : NoRepeatWithin) (member : String)
    (at_ : ℤ) : ⟨member, at_⟩ ∈ recordDraw recent gap member at_ := by
  have hlast : ∀ more kept : List RotationDraw, recent ++ [⟨member, at_⟩] = more ++ kept →
      (more = [] ∨ RECENT_CAP ≤ kept.length) → ⟨member, at_⟩ ∈ kept := by
    intro more kept heq hlong
    have hne : kept ≠ [] := by
      rintro rfl
      rcases hlong with rfl | hlong
      · simp at heq
      · simp [RECENT_CAP] at hlong
    have hget := congrArg List.getLast? heq
    rw [List.getLast?_concat, List.getLast?_append_of_ne_nil _ hne] at hget
    exact List.mem_of_getLast? hget.symm
  cases gap with
  | positions n =>
    obtain ⟨more, heq, hall⟩ := trimDraws_positions (max RECENT_CAP n)
      (recent ++ [⟨member, at_⟩])
    exact hlast _ _ heq (hall.imp_right (le_max_left _ _).trans)
  | duration d =>
    obtain ⟨more, heq, hlong, -⟩ := trimDraws_duration (at_ - d) (recent ++ [⟨member, at_⟩])
    exact hlast _ _ heq hlong

/-- Recording a draw keeps what any later placement can ask about. -/
theorem recordDraw_kept {gap : NoRepeatWithin} {dropped recent : List RotationDraw}
    (h : Kept gap dropped recent) (member : String) {at_ : ℤ}
    (hpast : ∀ r ∈ recent, r.at_ < at_) :
    ∃ more, recent ++ [⟨member, at_⟩] = more ++ recordDraw recent gap member at_ ∧
      Kept gap (dropped ++ more) (recordDraw recent gap member at_) := by
  cases gap with
  | positions n =>
    obtain ⟨more, heq, hall⟩ := trimDraws_positions (max RECENT_CAP n)
      (recent ++ [⟨member, at_⟩])
    refine ⟨more, heq, ?_⟩
    have hlen := congrArg List.length heq
    simp only [List.length_append, List.length_singleton] at hlen
    rcases hall with rfl | hall
    · rcases h with rfl | h
      · exact Or.inl rfl
      · right
        simp only [recordDraw, keepDraws]
        simp only [List.length_nil] at hlen
        omega
    · right
      simp only [recordDraw, keepDraws]
      omega
  | duration d =>
    obtain ⟨more, heq, -, hall⟩ := trimDraws_duration (at_ - d) (recent ++ [⟨member, at_⟩])
    refine ⟨more, heq, ?_⟩
    intro r hr
    refine ⟨_, mem_recordDraw _ _ _ _, ?_⟩
    rcases List.mem_append.mp hr with hr | hr
    · obtain ⟨later, hlater, hlt⟩ := h r hr
      have := hpast later hlater
      show r.at_ + d < at_
      omega
    · have := hall r hr
      show r.at_ + d < at_
      omega

/-- The draws one rotation makes over placements that come one after another, from none. -/
inductive Draws (name : String) (block : BlockInclude) (seedAt : ℤ → UInt64) :
    List (Placement × DrawReason) → RotationResume → Prop
  | nil : Draws name block seedAt [] {}
  | snoc {ds : List (Placement × DrawReason)} {state : RotationResume} (h : Draws name block seedAt ds state)
      (p : Placement) (hlater : ∀ d ∈ ds, d.1.start < p.start) :
      Draws name block seedAt (ds ++ [(p, (draw name block state (seedAt p.at_) p.start p.at_).1)])
        (draw name block state (seedAt p.at_) p.start p.at_).2

def history (ds : List (Placement × DrawReason)) : List RotationDraw :=
  ds.map fun d => ⟨d.2.member, d.1.at_⟩

theorem Placement.at_lt {p q : Placement} : p.at_ < q.at_ ↔ p.start < q.start := by
  simp only [Placement.at_, fromUnixTimestamp, p.start_mem, q.start_mem, and_self, if_true,
    SECOND]
  omega

/-- What holds of a rotation after any draws: its record is the end of the history, and the
history splits into passes. -/
structure Drawn (block : BlockInclude) (ds : List (Placement × DrawReason))
    (state : RotationResume) : Prop where
  kept : ∃ dropped, history ds = dropped ++ state.recent ∧ Kept block.gap dropped state.recent
  members : ∀ d ∈ ds, d.2.member ∈ block.slots
  sorted : (ds.map (·.1.start)).Pairwise (· < ·)
  passes : block.selects = .roundRobin →
    Lib.Passes block.slots (ds.map fun d => d.2.member) state.drawn

theorem history_append (ds es : List (Placement × DrawReason)) :
    history (ds ++ es) = history ds ++ history es := List.map_append

/-- A draw for a placement later than all before it is a new one. -/
theorem Drawn.fresh {block : BlockInclude} {ds : List (Placement × DrawReason)}
    {state : RotationResume} (h : Drawn block ds state) {p : Placement}
    (hlater : ∀ d ∈ ds, d.1.start < p.start) : state.drawnAt block p.at_ = none := by
  obtain ⟨dropped, hsplit, -⟩ := h.kept
  refine List.find?_eq_none.mpr fun r hr => ?_
  have hin : r ∈ history ds := hsplit ▸ List.mem_append_right _ hr
  obtain ⟨d, hd, rfl⟩ := List.mem_map.mp hin
  have hlt := Placement.at_lt.mpr (hlater d hd)
  have hne : d.1.at_ ≠ p.at_ := by omega
  simp [hne]

theorem draw_fresh (name : String) {block : BlockInclude} {state : RotationResume}
    (seed : UInt64) (start : ℤ) {at_ : ℤ} (hne : block.slots ≠ [])
    (hfresh : state.drawnAt block at_ = none) :
    let reason := (draw name block state seed start at_).1
    let after := (draw name block state seed start at_).2
    reason.member ∈ block.slots ∧ reason.reused = false ∧
      (reason.relaxed = false → isEligible state.recent reason.member block.gap at_) ∧
      after.recent = recordDraw state.recent block.gap reason.member at_ ∧
      (block.selects = .roundRobin →
        let current := if block.slots.all fun m => state.drawn.contains m then [] else state.drawn
        reason.member ∉ current ∧ after.drawn = current ++ [reason.member]) := by
  simp only [draw, hfresh]
  cases hselect : block.selects with
  | roundRobin =>
    obtain ⟨hin, hnew, hdrawn, helig⟩ := chooseRoundRobin_spec state
      (mixSeed seed (fnv1a name)) (fun m => isEligible state.recent m block.gap at_) hne
    exact ⟨hin, trivial, helig, trivial, fun _ => ⟨hnew, hdrawn⟩⟩
  | random =>
    obtain ⟨hin, helig⟩ := chooseRandom_spec state
      (mixSeed seed (fnv1a name)) (UInt64.ofNat (start % 2 ^ 64).toNat)
      (fun m => isEligible state.recent m block.gap at_) hne
    exact ⟨hin, trivial, helig, trivial, nofun⟩

/-- One more draw, for a later placement. -/
theorem Drawn.snoc {name : String} {block : BlockInclude} (hne : block.slots ≠ [])
    {ds : List (Placement × DrawReason)} {state : RotationResume} (h : Drawn block ds state)
    {p : Placement} (hlater : ∀ d ∈ ds, d.1.start < p.start) (seed : UInt64) :
    Drawn block (ds ++ [(p, (draw name block state seed p.start p.at_).1)])
      (draw name block state seed p.start p.at_).2 := by
  obtain ⟨hin, -, -, hrecent, hpass⟩ := draw_fresh name seed p.start hne (h.fresh hlater)
  set reason := (draw name block state seed p.start p.at_).1
  obtain ⟨dropped, hsplit, hkept⟩ := h.kept
  have hpast : ∀ r ∈ state.recent, r.at_ < p.at_ := by
    intro r hr
    have hmem : r ∈ history ds := hsplit ▸ List.mem_append_right _ hr
    obtain ⟨d, hd, rfl⟩ := List.mem_map.mp hmem
    exact Placement.at_lt.mpr (hlater d hd)
  refine ⟨?_, ?_, ?_, fun hselect => ?_⟩
  · obtain ⟨more, heq, hkept'⟩ := recordDraw_kept hkept reason.member hpast
    refine ⟨dropped ++ more, ?_, hrecent ▸ hkept'⟩
    rw [history_append, hsplit, List.append_assoc, List.append_assoc, hrecent, ← heq]
    rfl
  · intro d hd
    rcases List.mem_append.mp hd with hd | hd
    · exact h.members d hd
    · obtain rfl := List.mem_singleton.mp hd
      exact hin
  · rw [List.map_append, List.pairwise_append]
    refine ⟨h.sorted, List.pairwise_singleton _ _, ?_⟩
    intro a ha b hb
    obtain ⟨d, hd, rfl⟩ := List.mem_map.mp ha
    obtain rfl := List.mem_singleton.mp hb
    exact hlater d hd
  · obtain ⟨hnew, hdrawn⟩ := hpass hselect
    have hbefore := h.passes hselect
    rw [hdrawn, List.map_append]
    split_ifs at hnew ⊢ with hfull
    · refine (hbefore.close ?_).next hin hnew
      simpa only [List.all_eq_true, List.contains_iff_mem] using hfull
    · exact hbefore.next hin hnew

theorem Draws.drawn {name : String} {block : BlockInclude} {seedAt : ℤ → UInt64}
    (hne : block.slots ≠ []) {ds : List (Placement × DrawReason)} {state : RotationResume}
    (h : Draws name block seedAt ds state) : Drawn block ds state := by
  induction h with
  | nil =>
    refine ⟨⟨[], rfl, ?_⟩, fun d hd => absurd hd List.not_mem_nil, List.Pairwise.nil,
      fun _ => .nil _⟩
    unfold Kept
    split
    · exact Or.inl rfl
    · exact fun r hr => absurd hr List.not_mem_nil
  | snoc _ p hlater ih => exact ih.snoc hne hlater _

/-- Trimming the record never changes an eligibility answer. -/
theorem Drawn.isEligible_eq {block : BlockInclude} {ds : List (Placement × DrawReason)}
    {state : RotationResume} (h : Drawn block ds state) {at_ : ℤ}
    (hpast : ∀ d ∈ ds, d.1.at_ ≤ at_) (member : String) :
    isEligible state.recent member block.gap at_ =
      isEligible (history ds) member block.gap at_ := by
  obtain ⟨dropped, hsplit, hkept⟩ := h.kept
  rw [hsplit]
  refine hkept.isEligible_eq (fun r hr => ?_) member
  have hmem : r ∈ history ds := hsplit ▸ List.mem_append_right _ hr
  obtain ⟨d, hd, rfl⟩ := List.mem_map.mp hmem
  exact hpast d hd

/-- Every draw not marked relaxed obeys the gap against all draws before it. -/
theorem Draws.obeys {name : String} {block : BlockInclude} {seedAt : ℤ → UInt64}
    (hne : block.slots ≠ []) {ds : List (Placement × DrawReason)} {state : RotationResume}
    (h : Draws name block seedAt ds state) {before after : List (Placement × DrawReason)}
    {d : Placement × DrawReason} (hsplit : ds = before ++ d :: after)
    (hstrict : d.2.relaxed = false) : Obeys block.gap (history before) d.2.member d.1.at_ := by
  induction h generalizing after with
  | nil => simp at hsplit
  | @snoc ds state hds p hlater ih =>
    cases after using List.reverseRecOn with
    | nil =>
      obtain ⟨rfl, heq⟩ := List.append_inj' hsplit rfl
      obtain rfl := List.singleton_inj.mp heq
      have hdrawn := hds.drawn hne
      have helig := (draw_fresh name (seedAt p.at_) p.start hne
        (hdrawn.fresh hlater)).2.2.1 hstrict
      rw [hdrawn.isEligible_eq (fun e he => (Placement.at_lt.mpr (hlater e he)).le)] at helig
      exact isEligible_iff.mp helig
    | append_singleton after last _ =>
      rw [← List.cons_append, ← List.append_assoc] at hsplit
      exact ih (List.append_inj' hsplit rfl).1

/-- A placement still in the record keeps its member, and its rotation's state. -/
theorem Drawn.reread {block : BlockInclude} {ds : List (Placement × DrawReason)}
    {state : RotationResume} (h : Drawn block ds state) {d : Placement × DrawReason}
    (hd : d ∈ ds) (hrecord : ⟨d.2.member, d.1.at_⟩ ∈ state.recent) (name : String)
    (seed : UInt64) : draw name block state seed d.1.start d.1.at_ =
      (⟨name, d.2.member, true, block.selects, .none, [], false⟩, state) := by
  obtain ⟨dropped, hsplit, -⟩ := h.kept
  have hfind : state.drawnAt block d.1.at_ = some ⟨d.2.member, d.1.at_⟩ := by
    cases hsome : state.drawnAt block d.1.at_ with
    | none =>
      have := List.find?_eq_none.mp hsome _ hrecord
      simp [h.members d hd] at this
    | some r =>
      have hat := List.find?_some hsome
      simp only [Bool.and_eq_true, beq_iff_eq] at hat
      have hr : r ∈ history ds := hsplit ▸ List.mem_append_right _ (List.mem_of_find?_eq_some hsome)
      obtain ⟨e, he, rfl⟩ := List.mem_map.mp hr
      have heq : e.1.start = d.1.start := by
        have h1 := Placement.at_lt (p := e.1) (q := d.1)
        have h2 := Placement.at_lt (p := d.1) (q := e.1)
        simp only at hat
        omega
      have : e = d := by
        have hinj := List.inj_on_of_nodup_map (h.sorted.imp ne_of_lt)
        exact hinj he hd heq
      rw [this]
  simp only [draw, hfind]

/-- The draws a chain makes at rotation `name`, rereads left out. -/
def drawsAt (name : String) (chain : List DrawReason) : List DrawReason :=
  chain.filter fun r => r.rotation == name && !r.reused

/-- The draws a run makes at rotation `name`, each with its placement. -/
def drawsOf (name : String) (run : List (Placement × List DrawReason)) :
    List (Placement × DrawReason) :=
  run.flatMap fun r => (drawsAt name r.2).map fun reason => (r.1, reason)

/-- What a chain does to one rotation: nothing, or one draw for a placement it had no draw for. -/
structure Visit (name : String) (block : BlockInclude) (seed : UInt64) (start at_ : ℤ)
    (chain : List DrawReason) (before after : BTreeMap String RotationResume) : Prop where
  keyed : after.Keyed
  drawn : let state := (before.get name).getD {}
    let state' := (after.get name).getD {}
    (drawsAt name chain = [] ∧ state' = state) ∨
      (state.drawnAt block at_ = none ∧
        drawsAt name chain = [(draw name block state seed start at_).1] ∧
        state' = (draw name block state seed start at_).2)

theorem draw_rotation (name : String) (block : BlockInclude) (state : RotationResume)
    (seed : UInt64) (start at_ : ℤ) : (draw name block state seed start at_).1.rotation = name := by
  unfold draw
  split <;> rfl

theorem draw_drawnAt {name : String} {block : BlockInclude} {state : RotationResume}
    {seed : UInt64} {start at_ : ℤ} (hne : block.slots ≠ [])
    (hfresh : state.drawnAt block at_ = none) :
    (draw name block state seed start at_).2.drawnAt block at_ ≠ none := by
  obtain ⟨hin, -, -, hrecent, -⟩ := draw_fresh name seed start hne hfresh
  intro hnone
  rw [RotationResume.drawnAt, hrecent] at hnone
  have := List.find?_eq_none.mp hnone _ (mem_recordDraw _ _ _ _)
  simp [hin] at this

theorem resolveChain_visit {slots : BTreeMap String BlockInclude} {seed : UInt64}
    {start at_ : ℤ} {name : String} {block : BlockInclude} (hget : slots.get name = some block)
    (hne : block.slots ≠ []) {fuel : ℕ} {current : String}
    {before after : BTreeMap String RotationResume} {chain : List DrawReason}
    (hkeyed : before.Keyed)
    (h : resolveChain slots seed start at_ fuel current before = some (chain, after)) :
    Visit name block seed start at_ chain before after := by
  induction fuel generalizing current before chain with
  | zero => simp [resolveChain] at h
  | succ fuel ih =>
    rw [resolveChain] at h
    cases hb : (slots.get current).filter (·.isRotation) with
    | none =>
      simp only [hb, Option.some.injEq, Prod.mk.injEq] at h
      obtain ⟨rfl, rfl⟩ := h
      exact ⟨hkeyed, Or.inl ⟨rfl, rfl⟩⟩
    | some block' =>
      simp only [hb, Option.bind_eq_bind, Option.pure_def, Option.bind_eq_some_iff,
        Prod.exists, Option.some.injEq, Prod.mk.injEq] at h
      obtain ⟨rest, after', hrest, rfl, rfl⟩ := h
      set state := (before.get current).getD {} with hstate
      set made := draw current block' state seed start at_ with hmade
      have hvisit := ih (BTreeMap.put_keyed hkeyed _ _) hrest
      refine ⟨hvisit.keyed, ?_⟩
      have hdrawn := hvisit.drawn
      rw [BTreeMap.get_put hkeyed] at hdrawn
      by_cases hname : name = current
      · subst hname
        have hblock : block' = block := by
          rw [hget] at hb
          exact (Option.some.inj (Option.filter_eq_some_iff.mp hb).1).symm
        subst hblock
        simp only [if_true, Option.getD_some] at hdrawn
        cases hold : state.drawnAt block' at_ with
        | some d =>
          have heq : made = (⟨name, d.member, true, block'.selects, .none, [], false⟩, state) := by
            simp only [hmade, draw, hold]
          have hskip : drawsAt name (made.1 :: rest) = drawsAt name rest := by
            simp [drawsAt, heq]
          rw [heq] at hdrawn
          rw [hskip]
          exact hdrawn
        | none =>
          have hreused := (draw_fresh name seed start hne hold).2.1
          have hkeep : drawsAt name (made.1 :: rest) = made.1 :: drawsAt name rest := by
            have hrot := draw_rotation name block' state seed start at_
            rw [drawsAt, List.filter_cons_of_pos (by simp [hmade, hrot, hreused]), drawsAt]
          rcases hdrawn with ⟨hnil, hsame⟩ | ⟨hagain, -⟩
          · exact Or.inr ⟨hold, by rw [hkeep, hnil], hsame⟩
          · exact absurd hagain (draw_drawnAt hne hold)
      · have hskip : drawsAt name (made.1 :: rest) = drawsAt name rest := by
          have hrot := draw_rotation current block' state seed start at_
          rw [drawsAt, List.filter_cons_of_neg (by simp [hmade, hrot, Ne.symm hname]), drawsAt]
        rw [if_neg hname] at hdrawn
        rw [hskip]
        exact hdrawn

/-- Over placements one after another, each rotation makes its draws one after another. -/
theorem resolveAll_draws {slots : BTreeMap String BlockInclude} {seedAt : ℤ → UInt64}
    {name : String} {block : BlockInclude} (hget : slots.get name = some block)
    (hne : block.slots ≠ []) {fuel : ℕ} {ps : List Placement}
    {before after : BTreeMap String RotationResume} {run : List (Placement × List DrawReason)}
    {ds : List (Placement × DrawReason)} (hkeyed : before.Keyed)
    (hds : Draws name block seedAt ds ((before.get name).getD {}))
    (hsorted : (ps.map (·.start)).Pairwise (· < ·))
    (hlater : ∀ d ∈ ds, ∀ p ∈ ps, d.1.start < p.start)
    (h : resolveAll slots seedAt fuel ps before = some (run, after)) :
    Draws name block seedAt (ds ++ drawsOf name run) ((after.get name).getD {}) := by
  induction ps generalizing before run ds with
  | nil =>
    simp only [resolveAll, Option.some.injEq, Prod.mk.injEq] at h
    obtain ⟨rfl, rfl⟩ := h
    simpa [drawsOf] using hds
  | cons p ps ih =>
    simp only [resolveAll, Option.bind_eq_bind, Option.pure_def, Option.bind_eq_some_iff,
      Prod.exists, Option.some.injEq, Prod.mk.injEq] at h
    obtain ⟨chain, mid, hone, rest, after', hrest, rfl, rfl⟩ := h
    have hvisit := resolveChain_visit hget hne hkeyed hone
    rw [List.map_cons, List.pairwise_cons] at hsorted
    have hfirst : ∀ d ∈ ds, d.1.start < p.start := fun d hd => hlater d hd p List.mem_cons_self
    have hrun : drawsOf name ((p, chain) :: rest) =
        (drawsAt name chain).map (fun reason => (p, reason)) ++ drawsOf name rest := by
      simp [drawsOf]
    rw [hrun, ← List.append_assoc]
    refine ih hvisit.keyed ?_ hsorted.2 ?_ hrest
    · rcases hvisit.drawn with ⟨hnil, hsame⟩ | ⟨-, hone, hafter⟩
      · simpa [hnil, hsame] using hds
      · rw [hone, hafter]
        exact hds.snoc p hfirst
    · intro d hd q hq
      have hpq := hsorted.1 q.start (List.mem_map_of_mem hq)
      rcases List.mem_append.mp hd with hd | hd
      · exact (hfirst d hd).trans hpq
      · obtain ⟨reason, -, rfl⟩ := List.mem_map.mp hd
        exact hpq

/-- Rotation draws are fair and stable: over any placements one after another, the draws of every
rotation they resolve through split into passes under `round_robin`, every draw not marked
relaxed obeys the gap against all draws before it, the record answers for the whole history,
and a placement still in the record is drawn again without any change. -/
theorem rotation_fair {slots : BTreeMap String BlockInclude} {seedAt : ℤ → UInt64}
    {fuel : ℕ} {ps : List Placement} {after : BTreeMap String RotationResume}
    {run : List (Placement × List DrawReason)} (hsorted : (ps.map (·.start)).Pairwise (· < ·))
    (h : resolveAll slots seedAt fuel ps [] = some (run, after)) {name : String}
    {block : BlockInclude} (hget : slots.get name = some block) (hrotation : block.isRotation) :
    let ds := drawsOf name run
    let state := (after.get name).getD {}
    (block.selects = .roundRobin → ∃ current,
      Lib.Passes block.slots (ds.map fun d => d.2.member) current) ∧
    (∀ before d later, ds = before ++ d :: later → d.2.relaxed = false →
      Obeys block.gap (history before) d.2.member d.1.at_) ∧
    (∀ member at_, (∀ d ∈ ds, d.1.at_ ≤ at_) → isEligible state.recent member block.gap at_ =
      isEligible (history ds) member block.gap at_) ∧
    ∀ d ∈ ds, ⟨d.2.member, d.1.at_⟩ ∈ state.recent → ∀ seed,
      draw name block state seed d.1.start d.1.at_ =
        (⟨name, d.2.member, true, block.selects, .none, [], false⟩, state) := by
  have hne : block.slots ≠ [] := by
    simpa [BlockInclude.isRotation] using hrotation
  have hkeyed : BTreeMap.Keyed ([] : BTreeMap String RotationResume) := List.nodup_nil
  have hdraws := resolveAll_draws hget hne hkeyed (.nil : Draws name block seedAt [] {}) hsorted
    (fun d hd => absurd hd List.not_mem_nil) h
  rw [List.nil_append] at hdraws
  have hdrawn := hdraws.drawn hne
  refine ⟨fun hselect => ⟨_, hdrawn.passes hselect⟩, ?_, ?_, ?_⟩
  · intro before d later hsplit hstrict
    exact hdraws.obeys hne hsplit hstrict
  · intro member at_ hpast
    exact hdrawn.isEligible_eq hpast member
  · intro d hd hrecord seed
    exact hdrawn.reread hd hrecord name seed

/-- A draw names one of the rotation's members. -/
theorem draw_mem (name : String) {block : BlockInclude} (hne : block.slots ≠ [])
    (state : RotationResume) (seed : UInt64) (start at_ : ℤ) :
    (draw name block state seed start at_).1.member ∈ block.slots := by
  cases hold : state.drawnAt block at_ with
  | none => exact (draw_fresh name seed start hne hold).1
  | some d =>
    have hd := List.find?_some hold
    simp only [Bool.and_eq_true, List.contains_iff_mem] at hd
    simpa only [draw, hold] using hd.2

/-- Chains end where the members of every rotation rank below it. -/
theorem resolveChain_isSome {slots : BTreeMap String BlockInclude} {seed : UInt64}
    {start at_ : ℤ} (rank : String → ℕ)
    (hrank : ∀ name block, slots.get name = some block → block.isRotation →
      ∀ m ∈ block.slots, rank m < rank name)
    (fuel : ℕ) (current : String) (rotations : BTreeMap String RotationResume)
    (hfuel : rank current < fuel) :
    (resolveChain slots seed start at_ fuel current rotations).isSome := by
  induction fuel generalizing current rotations with
  | zero => omega
  | succ fuel ih =>
    rw [resolveChain]
    cases hb : (slots.get current).filter (·.isRotation) with
    | none => rfl
    | some block =>
      obtain ⟨hget, hrotation⟩ := Option.filter_eq_some_iff.mp hb
      have hne : block.slots ≠ [] := by
        simpa [BlockInclude.isRotation] using hrotation
      set made := draw current block ((rotations.get current).getD {}) seed start at_ with hmade
      have hlt : rank made.1.member < rank current :=
        hrank current block hget hrotation _ (draw_mem current hne _ _ _ _)
      obtain ⟨r, hr⟩ := Option.isSome_iff_exists.mp
        (ih made.1.member (rotations.put current made.2) (by omega))
      simp only [← hmade, hr, Option.bind_eq_bind, Option.pure_def, Option.bind_some,
        Option.isSome_some]

/-- Two members, one of them a rotation of its own. -/
def primeSlots : BTreeMap String BlockInclude :=
  [("a", {}), ("m1", {}), ("m2", {}), ("movies", { slots := ["m1", "m2"] }),
    ("prime", { slots := ["movies", "a"] })]

def primePlacements : List Placement :=
  [⟨"prime", 1000, by decide⟩, ⟨"prime", 2000, by decide⟩, ⟨"prime", 3000, by decide⟩]

theorem rotation_fair_prime : ∃ run after,
    resolveAll primeSlots (fun _ => 7) 3 primePlacements [] = some (run, after) ∧
      ∃ current, Lib.Passes ["movies", "a"]
        ((drawsOf "prime" run).map fun d => d.2.member) current := by
  have hsome : (resolveAll primeSlots (fun _ => 7) 3 primePlacements []).isSome := by
    decide
  obtain ⟨⟨run, after⟩, hrun⟩ := Option.isSome_iff_exists.mp hsome
  have hget : primeSlots.get "prime" = some { slots := ["movies", "a"] } := rfl
  have hfair := rotation_fair (by decide) hrun hget rfl
  exact ⟨run, after, hrun, hfair.1 rfl⟩

end EtvStation
