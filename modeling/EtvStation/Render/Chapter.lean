import EtvStation.Lib.Outcome
import Mathlib.Data.Rat.Floor
import Mathlib.Tactic.FieldSimp
import Mathlib.Tactic.Linarith
import Mathlib.Tactic.Positivity
import Mathlib.Tactic.Ring

/-! The chapter plan and the audio layers cut from it: what a plan must hold for every layer to lie
in what is separated. Bar counts are 32 bits wide, seconds and tempos are exact. -/
namespace EtvStation.Render

/-- Bars of a hook's source that are separated before the landing bar. -/
def REGION_BARS_BEFORE : ℚ := 4

/-- Bars of it that are separated from the landing bar on. -/
def REGION_BARS_AFTER : UInt32 := 18

def BAR_SECONDS_TOLERANCE : ℚ := 1 / 1000

def CUT_TOLERANCE_S : ℚ := 1 / 20

structure Hook where
  entryId : String
  path : String
  landingS : ℚ
  nativeBpm : ℚ
  semitones : ℤ
  vocalOverBars : UInt32
  fullBars : UInt32
  deriving DecidableEq

structure PlanSource where
  entryId : String
  path : String
  deriving DecidableEq

structure Cut where
  entryId : String
  nativeStartS : ℚ
  outStartS : ℚ
  lengthS : ℚ
  ratio : ℚ
  deriving DecidableEq

structure Card where
  atS : ℚ
  artist : String
  title : String
  year : Option UInt32 := none
  deriving DecidableEq

structure Plan where
  bpm : ℚ
  key : String
  camelot : String
  barSeconds : ℚ
  hooks : List Hook
  broll : List PlanSource := []
  cuts : List Cut
  cards : List Card := []
  output : String
  deriving DecidableEq

/-- What a plan is refused for, with the place and the values the message names. -/
inductive PlanError where
  | bpm (bpm : ℚ)
  | barSeconds (barSeconds bpm : ℚ)
  | noHooks
  | hookTwice (i : ℕ) (entryId : String)
  | nativeBpm (i : ℕ) (entryId : String)
  | fullBars (i : ℕ) (entryId : String)
  | firstVocalOver (i : ℕ) (entryId : String)
  | landing (i : ℕ) (entryId : String) (landingS before : ℚ)
  | pastRegion (i : ℕ) (entryId : String) (used : UInt32)
  | brollTwice (entryId : String)
  | noCuts
  | cutSource (i : ℕ) (entryId : String)
  | cutLength (i : ℕ) (entryId : String)
  | cutRatio (i : ℕ) (entryId : String)
  | cutStart (i : ℕ) (entryId : String)
  | cutGap (i : ℕ) (entryId : String) (outStartS end_ : ℚ)
  | cutsEnd (end_ total : ℚ) (bars : UInt32) (barSeconds : ℚ)
  | card (i : ℕ) (atS total : ℚ)
  | noOutput
  deriving DecidableEq

def Hook.nativeBar (h : Hook) : ℚ := 240 / h.nativeBpm

/-- The slice of the song that is separated: its start and length. -/
def region (h : Hook) : ℚ × ℚ :=
  (h.landingS - REGION_BARS_BEFORE * h.nativeBar,
    (REGION_BARS_BEFORE + REGION_BARS_AFTER.toNat) * h.nativeBar)

namespace Plan

variable (p : Plan)

def totalBars : UInt32 := (p.hooks.map fun h => h.vocalOverBars + h.fullBars).foldl (· + ·) 0

def durationS : ℚ := p.totalBars.toNat * p.barSeconds

def sourcePath (entryId : String) : Option String :=
  ((p.hooks.map fun h => (h.entryId, h.path)) ++ p.broll.map fun s => (s.entryId, s.path)).lookup
    entryId

end Plan

/-- The bars after its landing that are cut from a hook, its own and the next one's vocal-over. -/
def Hook.used (hook : Hook) (next : Option Hook) : UInt32 :=
  hook.vocalOverBars + hook.fullBars + (next.map (·.vocalOverBars)).getD 0

def checkHook (i : ℕ) (ids : List String) (hook : Hook) (next : Option Hook) :
    Except PlanError Unit :=
  if hook.entryId ∈ ids then .error (.hookTwice i hook.entryId)
  else if hook.nativeBpm ≤ 0 then .error (.nativeBpm i hook.entryId)
  else if hook.fullBars = 0 then .error (.fullBars i hook.entryId)
  else if i = 0 ∧ hook.vocalOverBars ≠ 0 then .error (.firstVocalOver i hook.entryId)
  else if hook.landingS < REGION_BARS_BEFORE * hook.nativeBar then
    .error (.landing i hook.entryId hook.landingS (REGION_BARS_BEFORE * hook.nativeBar))
  else if hook.used next > REGION_BARS_AFTER then
    .error (.pastRegion i hook.entryId (hook.used next))
  else .ok ()

/-- Every hook in turn; the ids taken so far are handed on. -/
def checkHooks : ℕ → List String → List Hook → Except PlanError (List String)
  | _, ids, [] => .ok ids
  | i, ids, hook :: rest => do
    checkHook i ids hook rest.head?
    checkHooks (i + 1) (hook.entryId :: ids) rest

def checkBroll : List String → List PlanSource → Except PlanError Unit
  | _, [] => .ok ()
  | ids, source :: rest =>
    if source.entryId ∈ ids then .error (.brollTwice source.entryId)
    else checkBroll (source.entryId :: ids) rest

/-- Every cut in turn, from where the one before ended; where the last one ends. -/
def checkCuts (p : Plan) : ℕ → ℚ → List Cut → Except PlanError ℚ
  | _, end_, [] => .ok end_
  | i, end_, cut :: rest =>
    if (p.sourcePath cut.entryId).isNone then .error (.cutSource i cut.entryId)
    else if cut.lengthS ≤ 0 then .error (.cutLength i cut.entryId)
    else if cut.ratio ≤ 0 then .error (.cutRatio i cut.entryId)
    else if cut.nativeStartS < 0 then .error (.cutStart i cut.entryId)
    else if |cut.outStartS - end_| > CUT_TOLERANCE_S then
      .error (.cutGap i cut.entryId cut.outStartS end_)
    else checkCuts p (i + 1) (cut.outStartS + cut.lengthS) rest

def checkCards (total : ℚ) : ℕ → List Card → Except PlanError Unit
  | _, [] => .ok ()
  | i, card :: rest =>
    if 0 ≤ card.atS ∧ card.atS ≤ total then checkCards total (i + 1) rest
    else .error (.card i card.atS total)

def checkCutsEnd (p : Plan) (end_ : ℚ) : Except PlanError Unit :=
  if |end_ - p.durationS| > CUT_TOLERANCE_S then
    .error (.cutsEnd end_ p.durationS p.totalBars p.barSeconds)
  else .ok ()

def Plan.validate (p : Plan) : Except PlanError Unit :=
  if p.bpm ≤ 0 then .error (.bpm p.bpm)
  else if |p.barSeconds - 240 / p.bpm| > BAR_SECONDS_TOLERANCE then
    .error (.barSeconds p.barSeconds p.bpm)
  else if p.hooks.isEmpty then .error .noHooks
  else do
    let ids ← checkHooks 0 [] p.hooks
    checkBroll ids p.broll
    if p.cuts.isEmpty then .error .noCuts
    else
      let end_ ← checkCuts p 0 0 p.cuts
      checkCutsEnd p end_
      checkCards p.durationS 0 p.cards
      if p.output.isEmpty then .error .noOutput else .ok ()

/-- One stem excerpt on the chapter's timeline: `native` in the stem file, `out` in the chapter. -/
structure Layer where
  name : String
  dir : String
  stem : String
  nativeStart : ℚ
  nativeLen : ℚ
  outStart : ℚ
  tempo : ℚ
  /-- The shift the frequency ratio `2 ^ (semitones / 12)` comes from. -/
  semitones : ℤ
  targetDb : ℚ
  fadeIn : ℚ
  fadeOut : ℚ
  deriving DecidableEq

def Layer.outLen (l : Layer) : ℚ := l.nativeLen / l.tempo

def VOCALS : String := "vocals.wav"
def NO_VOCALS : String := "no_vocals.wav"
def VOCAL_DB : ℚ := -20
def SEAM_VOCAL_DB : ℚ := -19
def INSTRUMENTAL_DB : ℚ := -17

section Layers

variable (p : Plan) (stemDirs : ℕ → String)

/-- An excerpt of hook `i`'s stem: `bars` of it from `fromBar` after the landing, at `atBar`. -/
def layerOf (i : ℕ) (hook : Hook) (name stem : String) (fromBar bars atBar : UInt32)
    (db fadeIn fadeOut : ℚ) : Layer where
  name := name
  dir := stemDirs i
  stem := stem
  nativeStart := (REGION_BARS_BEFORE + fromBar.toNat) * hook.nativeBar
  nativeLen := bars.toNat * hook.nativeBar
  outStart := atBar.toNat * p.barSeconds
  tempo := p.bpm / hook.nativeBpm
  semitones := hook.semitones
  targetDb := db
  fadeIn := fadeIn
  fadeOut := fadeOut

def hookName (i : ℕ) (hook : Hook) (kind : String) : String :=
  "hook " ++ toString (i + 1) ++ " (" ++ hook.entryId ++ ") " ++ kind

/-- The layers of hook `i`, whose bars begin at `outBar`. -/
def hookLayers (i : ℕ) (prev : Option Hook) (hook : Hook) (outBar : UInt32) : List Layer :=
  let layer := fun kind => layerOf p stemDirs i hook (hookName i hook kind)
  match prev with
  | none =>
    [layer "vocals" VOCALS 0 hook.fullBars outBar VOCAL_DB (1 / 50) (1 / 50),
      layer "instrumental" NO_VOCALS 0 hook.fullBars outBar INSTRUMENTAL_DB 1 (1 / 50)]
  | some prev =>
    -- the previous song's instrumental carries on from where its own bars ended
    (if hook.vocalOverBars > 0 then
      [layerOf p stemDirs (i - 1) prev (hookName (i - 1) prev "instrumental under the next vocal")
        NO_VOCALS (prev.vocalOverBars + prev.fullBars) hook.vocalOverBars outBar INSTRUMENTAL_DB
        (1 / 50) p.barSeconds,
        layer "vocals over the previous song" VOCALS 0 hook.vocalOverBars outBar SEAM_VOCAL_DB
          (1 / 2) (1 / 50)]
    else []) ++
    [layer "vocals" VOCALS hook.vocalOverBars hook.fullBars (outBar + hook.vocalOverBars) VOCAL_DB
        (1 / 50) (1 / 50),
      layer "instrumental" NO_VOCALS hook.vocalOverBars hook.fullBars (outBar + hook.vocalOverBars)
        INSTRUMENTAL_DB (3 / 10) (1 / 50)]

def layersFrom : ℕ → Option Hook → UInt32 → List Hook → List Layer
  | _, _, _, [] => []
  | i, prev, outBar, hook :: rest =>
    hookLayers p stemDirs i prev hook outBar ++
      layersFrom (i + 1) (some hook) (outBar + (hook.vocalOverBars + hook.fullBars)) rest

def layers : List Layer := layersFrom p stemDirs 0 none 0 p.hooks

end Layers

/-- What an accepted hook holds, in the arithmetic it is checked in. -/
structure Hook.Accepted (i : ℕ) (hook : Hook) (next : Option Hook) : Prop where
  bpm_pos : 0 < hook.nativeBpm
  full_ne_zero : hook.fullBars ≠ 0
  first_over : i = 0 → hook.vocalOverBars = 0
  landing : REGION_BARS_BEFORE * hook.nativeBar ≤ hook.landingS
  used_le : hook.used next ≤ REGION_BARS_AFTER

def HooksAccepted : ℕ → List Hook → Prop
  | _, [] => True
  | i, hook :: rest => hook.Accepted i rest.head? ∧ HooksAccepted (i + 1) rest

theorem checkHook_ok {i : ℕ} {ids : List String} {hook : Hook} {next : Option Hook}
    (h : checkHook i ids hook next = .ok ()) : hook.Accepted i next := by
  unfold checkHook at h
  split_ifs at h with hid hbpm hfull hover hlanding hused
  exact ⟨not_le.mp hbpm, hfull, fun hi => by_contra fun hne => hover ⟨hi, hne⟩,
    not_lt.mp hlanding, UInt32.not_lt.mp hused⟩

theorem checkHooks_ok {i : ℕ} {ids ids' : List String} {hooks : List Hook}
    (h : checkHooks i ids hooks = .ok ids') : HooksAccepted i hooks := by
  induction hooks generalizing i ids with
  | nil => exact trivial
  | cons hook rest ih =>
    obtain ⟨_, hhook, hrest⟩ := Lib.bind_eq_ok.mp h
    exact ⟨checkHook_ok hhook, ih hrest⟩

theorem validate_ok {p : Plan} (h : p.validate = .ok ()) :
    0 < p.bpm ∧ p.hooks ≠ [] ∧ HooksAccepted 0 p.hooks := by
  unfold Plan.validate at h
  by_cases hbpm : p.bpm ≤ 0
  · rw [if_pos hbpm] at h
    cases h
  · by_cases hbar : |p.barSeconds - 240 / p.bpm| > BAR_SECONDS_TOLERANCE
    · rw [if_neg hbpm, if_pos hbar] at h
      cases h
    · by_cases hnone : p.hooks.isEmpty
      · rw [if_neg hbpm, if_neg hbar, if_pos hnone] at h
        cases h
      · rw [if_neg hbpm, if_neg hbar, if_neg hnone] at h
        obtain ⟨_, hhooks, -⟩ := Lib.bind_eq_ok.mp h
        exact ⟨not_le.mp hbpm, fun hnil => hnone (by rw [hnil]; rfl), checkHooks_ok hhooks⟩

def Hook.bars (h : Hook) : ℕ := h.vocalOverBars.toNat + h.fullBars.toNat

/-- The bars of the chapter, counted without wrapping. -/
def barsOf (hooks : List Hook) : ℕ := (hooks.map Hook.bars).sum

/-- A layer lies in the region that is separated of its hook's song. -/
def Layer.InRegion (p : Plan) (stemDirs : ℕ → String) (l : Layer) : Prop :=
  ∃ i hook, p.hooks[i]? = some hook ∧ l.dir = stemDirs i ∧ 0 ≤ l.nativeStart ∧
    l.nativeStart + l.nativeLen ≤ (region hook).2

/-- The layers fill the bars from `from_` to `to_`, one after the other. -/
def TilesBars (p : Plan) : ℕ → ℕ → List Layer → Prop
  | from_, to_, [] => from_ = to_
  | from_, to_, l :: rest => ∃ bars : ℕ, 0 < bars ∧ l.outStart = from_ * p.barSeconds ∧
      l.outLen = bars * (240 / p.bpm) ∧ TilesBars p (from_ + bars) to_ rest

/-- Whose vocals come when: a hook that sings over the one before it has two layers of them. -/
def vocalDirs (stemDirs : ℕ → String) (i : ℕ) (hooks : List Hook) : List String :=
  (hooks.zipIdx i).flatMap fun e =>
    List.replicate (if e.1.vocalOverBars = 0 then 1 else 2) (stemDirs e.2)

def vocals (layers : List Layer) : List Layer := layers.filter fun l => l.stem = VOCALS

/-- What a chapter's layers should be. -/
structure StaysSeparated (p : Plan) (stemDirs : ℕ → String) : Prop where
  total : p.totalBars.toNat = barsOf p.hooks
  inRegion : ∀ l ∈ layers p stemDirs, l.InRegion p stemDirs
  tiles : TilesBars p 0 (barsOf p.hooks) (vocals (layers p stemDirs))
  order : (vocals (layers p stemDirs)).map (·.dir) = vocalDirs stemDirs 0 p.hooks
  /-- No sum of bars wraps. -/
  used : ∀ i hook, p.hooks[i]? = some hook → (hook.used p.hooks[i + 1]?).toNat =
    hook.bars + ((p.hooks[i + 1]?.map (·.vocalOverBars.toNat)).getD 0)

theorem TilesBars.append {p : Plan} {a b c : ℕ} {l l' : List Layer} (h : TilesBars p a b l)
    (h' : TilesBars p b c l') : TilesBars p a c (l ++ l') := by
  induction l generalizing a with
  | nil => exact h ▸ h'
  | cons layer l ih =>
    obtain ⟨bars, hpos, hstart, hlen, hrest⟩ := h
    exact ⟨bars, hpos, hstart, hlen, ih hrest⟩

theorem toNat_add_of_lt {a b : UInt32} (h : a.toNat + b.toNat < 2 ^ 32) :
    (a + b).toNat = a.toNat + b.toNat := by
  rw [UInt32.toNat_add, Nat.mod_eq_of_lt h]

theorem barsOf_cons (hook : Hook) (hooks : List Hook) :
    barsOf (hook :: hooks) = hook.vocalOverBars.toNat + hook.fullBars.toNat + barsOf hooks := by
  rw [barsOf, List.map_cons, List.sum_cons, Hook.bars, barsOf]

theorem totalBars_toNat {hooks : List Hook} {done : UInt32}
    (h : done.toNat + barsOf hooks < 2 ^ 32) :
    ((hooks.map fun h => h.vocalOverBars + h.fullBars).foldl (· + ·) done).toNat =
      done.toNat + barsOf hooks := by
  induction hooks generalizing done with
  | nil => rfl
  | cons hook hooks ih =>
    rw [barsOf_cons] at h ⊢
    have hhook : (hook.vocalOverBars + hook.fullBars).toNat =
        hook.vocalOverBars.toNat + hook.fullBars.toNat := toNat_add_of_lt (by omega)
    have hdone : (done + (hook.vocalOverBars + hook.fullBars)).toNat =
        done.toNat + (hook.vocalOverBars.toNat + hook.fullBars.toNat) := by
      rw [toNat_add_of_lt (by omega), hhook]
    rw [List.map_cons, List.foldl_cons, ih (by omega), hdone]
    omega

/-- Every hook's bars lie in its region, and the next one's vocal-over after them. -/
def Room : Option Hook → List Hook → Prop
  | _, [] => True
  | prev, hook :: rest => 0 < hook.nativeBpm ∧ 0 < hook.fullBars.toNat ∧ hook.bars ≤ 18 ∧
      (match prev with
      | none => hook.vocalOverBars.toNat = 0
      | some q => 0 < q.nativeBpm ∧ q.bars + hook.vocalOverBars.toNat ≤ 18) ∧ Room (some hook) rest

section Layers

variable {p : Plan} {stemDirs : ℕ → String} {i : ℕ} {hook : Hook} {name stem : String}
  {fromBar bars atBar : UInt32} {db fadeIn fadeOut : ℚ}

theorem layerOf_inRegion (hhook : p.hooks[i]? = some hook) (hbpm : 0 < hook.nativeBpm)
    (hroom : fromBar.toNat + bars.toNat ≤ 18) :
    (layerOf p stemDirs i hook name stem fromBar bars atBar db fadeIn fadeOut).InRegion p
      stemDirs := by
  have hbar : 0 < hook.nativeBar := div_pos (by norm_num) hbpm
  have hsum : (fromBar.toNat : ℚ) + bars.toNat ≤ 18 := by exact_mod_cast hroom
  refine ⟨i, hook, hhook, rfl, ?_, ?_⟩
  · have : (0 : ℚ) ≤ REGION_BARS_BEFORE + fromBar.toNat := by
      simp only [REGION_BARS_BEFORE]
      positivity
    exact mul_nonneg this hbar.le
  · simp only [layerOf, region, REGION_BARS_BEFORE, REGION_BARS_AFTER]
    calc (4 + (fromBar.toNat : ℚ)) * hook.nativeBar + bars.toNat * hook.nativeBar
        = (4 + (fromBar.toNat + bars.toNat)) * hook.nativeBar := by ring
      _ ≤ (4 + 18) * hook.nativeBar := by
        exact mul_le_mul_of_nonneg_right (by linarith) hbar.le

/-- An excerpt lasts its bars at the chapter's tempo, whatever its own was. -/
theorem layerOf_outLen (hbpm : 0 < hook.nativeBpm) :
    (layerOf p stemDirs i hook name stem fromBar bars atBar db fadeIn fadeOut).outLen =
      bars.toNat * (240 / p.bpm) := by
  simp only [Layer.outLen, layerOf, Hook.nativeBar]
  field_simp

variable (p stemDirs)

/-- The layers of one hook: inside their songs' regions, its vocals over its own bars. -/
theorem hookLayers_spec {prev : Option Hook} {outBar : UInt32} (hhook : p.hooks[i]? = some hook)
    (hprev : ∀ q, prev = some q → p.hooks[i - 1]? = some q) {rest : List Hook}
    (hroom : Room prev (hook :: rest)) (hfit : outBar.toNat + hook.bars < 2 ^ 32) :
    (∀ l ∈ hookLayers p stemDirs i prev hook outBar, l.InRegion p stemDirs) ∧
      TilesBars p outBar.toNat (outBar.toNat + hook.bars)
        (vocals (hookLayers p stemDirs i prev hook outBar)) ∧
      (vocals (hookLayers p stemDirs i prev hook outBar)).map (·.dir) =
        List.replicate (if hook.vocalOverBars = 0 then 1 else 2) (stemDirs i) := by
  obtain ⟨hbpm, hfull, hbars, hover, -⟩ := hroom
  unfold Hook.bars at hbars hfit
  cases prev with
  | none =>
    have hzero : hook.vocalOverBars = 0 := UInt32.toNat_inj.mp hover
    refine ⟨?_, ?_, ?_⟩
    · intro l hl
      simp only [hookLayers, List.mem_cons, List.not_mem_nil, or_false] at hl
      rcases hl with rfl | rfl <;> exact layerOf_inRegion hhook hbpm (by simpa using by omega)
    · refine ⟨hook.fullBars.toNat, hfull, rfl, layerOf_outLen hbpm, ?_⟩
      show outBar.toNat + hook.fullBars.toNat = outBar.toNat + hook.bars
      unfold Hook.bars
      omega
    · rw [if_pos hzero]
      rfl
  | some q =>
    obtain ⟨hqbpm, hcarried⟩ := hover
    unfold Hook.bars at hcarried
    have hqbars : (q.vocalOverBars + q.fullBars).toNat =
        q.vocalOverBars.toNat + q.fullBars.toNat := toNat_add_of_lt (by omega)
    have hfullAt : (outBar + hook.vocalOverBars).toNat =
        outBar.toNat + hook.vocalOverBars.toNat := toNat_add_of_lt (by omega)
    by_cases hzero : hook.vocalOverBars = 0
    · have hnone : hook.vocalOverBars.toNat = 0 := by rw [hzero]; rfl
      have hlayers : hookLayers p stemDirs i (some q) hook outBar =
          [layerOf p stemDirs i hook (hookName i hook "vocals") VOCALS hook.vocalOverBars
              hook.fullBars (outBar + hook.vocalOverBars) VOCAL_DB (1 / 50) (1 / 50),
            layerOf p stemDirs i hook (hookName i hook "instrumental") NO_VOCALS hook.vocalOverBars
              hook.fullBars (outBar + hook.vocalOverBars) INSTRUMENTAL_DB (3 / 10) (1 / 50)] := by
        have hnot : ¬ hook.vocalOverBars > 0 := by rw [hzero]; decide
        simp only [hookLayers, if_neg hnot, List.nil_append]
      rw [hlayers]
      refine ⟨?_, ?_, ?_⟩
      · intro l hl
        simp only [List.mem_cons, List.not_mem_nil, or_false] at hl
        rcases hl with rfl | rfl <;> exact layerOf_inRegion hhook hbpm hbars
      · refine ⟨hook.fullBars.toNat, hfull, ?_, layerOf_outLen hbpm, ?_⟩
        · simp only [layerOf, hfullAt, hnone, Nat.add_zero]
        · show outBar.toNat + hook.fullBars.toNat = outBar.toNat + hook.bars
          unfold Hook.bars
          omega
      · rw [if_pos hzero]
        rfl
    · have hpos : 0 < hook.vocalOverBars.toNat :=
        Nat.pos_of_ne_zero fun hnone => hzero (UInt32.toNat_inj.mp hnone)
      have hlayers : hookLayers p stemDirs i (some q) hook outBar =
          [layerOf p stemDirs (i - 1) q (hookName (i - 1) q "instrumental under the next vocal")
              NO_VOCALS (q.vocalOverBars + q.fullBars) hook.vocalOverBars outBar INSTRUMENTAL_DB
              (1 / 50) p.barSeconds,
            layerOf p stemDirs i hook (hookName i hook "vocals over the previous song") VOCALS 0
              hook.vocalOverBars outBar SEAM_VOCAL_DB (1 / 2) (1 / 50),
            layerOf p stemDirs i hook (hookName i hook "vocals") VOCALS hook.vocalOverBars
              hook.fullBars (outBar + hook.vocalOverBars) VOCAL_DB (1 / 50) (1 / 50),
            layerOf p stemDirs i hook (hookName i hook "instrumental") NO_VOCALS hook.vocalOverBars
              hook.fullBars (outBar + hook.vocalOverBars) INSTRUMENTAL_DB (3 / 10) (1 / 50)] := by
        have hover : hook.vocalOverBars > 0 := UInt32.lt_iff_toNat_lt.mpr hpos
        simp only [hookLayers, if_pos hover, List.cons_append, List.nil_append]
      rw [hlayers]
      refine ⟨?_, ?_, ?_⟩
      · intro l hl
        simp only [List.mem_cons, List.not_mem_nil, or_false] at hl
        rcases hl with rfl | rfl | rfl | rfl
        · exact layerOf_inRegion (hprev q rfl) hqbpm (by omega)
        · refine layerOf_inRegion hhook hbpm ?_
          show 0 + hook.vocalOverBars.toNat ≤ 18
          omega
        · exact layerOf_inRegion hhook hbpm hbars
        · exact layerOf_inRegion hhook hbpm hbars
      · refine ⟨hook.vocalOverBars.toNat, hpos, rfl, layerOf_outLen hbpm,
          hook.fullBars.toNat, hfull, ?_, layerOf_outLen hbpm, ?_⟩
        · simp only [layerOf, hfullAt]
        · show outBar.toNat + hook.vocalOverBars.toNat + hook.fullBars.toNat =
            outBar.toNat + hook.bars
          unfold Hook.bars
          omega
      · rw [if_neg hzero]
        rfl

theorem layersFrom_spec {prev : Option Hook} {outBar : UInt32} {hooks : List Hook}
    (hdrop : p.hooks.drop i = hooks) (hprev : ∀ q, prev = some q → p.hooks[i - 1]? = some q)
    (hroom : Room prev hooks) (hfit : outBar.toNat + barsOf hooks < 2 ^ 32) :
    (∀ l ∈ layersFrom p stemDirs i prev outBar hooks, l.InRegion p stemDirs) ∧
      TilesBars p outBar.toNat (outBar.toNat + barsOf hooks)
        (vocals (layersFrom p stemDirs i prev outBar hooks)) ∧
      (vocals (layersFrom p stemDirs i prev outBar hooks)).map (·.dir) =
        vocalDirs stemDirs i hooks := by
  induction hooks generalizing i prev outBar with
  | nil => exact ⟨fun l hl => absurd hl List.not_mem_nil, rfl, rfl⟩
  | cons hook rest ih =>
    rw [barsOf_cons] at hfit
    have hhook : p.hooks[i]? = some hook := by
      rw [← List.head?_drop, hdrop]
      rfl
    have hrest : p.hooks.drop (i + 1) = rest := by
      rw [← List.drop_drop, hdrop]
      rfl
    have hbars : (hook.vocalOverBars + hook.fullBars).toNat = hook.bars :=
      toNat_add_of_lt (by omega)
    have hnext : (outBar + (hook.vocalOverBars + hook.fullBars)).toNat =
        outBar.toNat + hook.bars := by
      rw [toNat_add_of_lt (by rw [hbars]; unfold Hook.bars; omega), hbars]
    have hfitHook : outBar.toNat + hook.bars < 2 ^ 32 := by
      unfold Hook.bars
      omega
    obtain ⟨hin, htiles, horder⟩ := hookLayers_spec p stemDirs hhook hprev hroom hfitHook
    obtain ⟨hin', htiles', horder'⟩ := ih hrest (fun q hq => by
      rw [Nat.add_sub_cancel, ← hq]
      exact hhook) hroom.2.2.2.2 (by rw [hnext]; unfold Hook.bars; omega)
    refine ⟨?_, ?_, ?_⟩
    · intro l hl
      rcases List.mem_append.mp hl with hl | hl
      · exact hin l hl
      · exact hin' l hl
    · have htotal : outBar.toNat + barsOf (hook :: rest) =
          outBar.toNat + hook.bars + barsOf rest := by
        rw [barsOf_cons, Hook.bars]
        omega
      rw [hnext] at htiles'
      rw [htotal, layersFrom, vocals, List.filter_append]
      exact htiles.append htiles'
    · rw [layersFrom, vocals, List.filter_append, List.map_append, vocalDirs, List.zipIdx_cons,
        List.flatMap_cons]
      exact congrArg₂ (· ++ ·) horder horder'

end Layers

/-- The counts of a plan's hooks, each small enough that no sum of three wraps. -/
def SmallCounts (hooks : List Hook) : Prop :=
  ∀ hook ∈ hooks, hook.vocalOverBars.toNat ≤ 18 ∧ hook.fullBars.toNat ≤ 18

instance : DecidablePred SmallCounts := fun hooks =>
  inferInstanceAs (Decidable (∀ hook ∈ hooks, _))

theorem used_toNat {hook : Hook} {next : Option Hook}
    (h : hook.bars + (next.map (·.vocalOverBars.toNat)).getD 0 < 2 ^ 32) :
    (hook.used next).toNat = hook.bars + (next.map (·.vocalOverBars.toNat)).getD 0 := by
  unfold Hook.bars at h
  have hbars : (hook.vocalOverBars + hook.fullBars).toNat = hook.bars :=
    toNat_add_of_lt (by omega)
  have hnext : ((Option.map Hook.vocalOverBars next).getD 0).toNat =
      (next.map (·.vocalOverBars.toNat)).getD 0 := by
    cases next <;> rfl
  unfold Hook.used
  rw [toNat_add_of_lt (by rw [hbars, hnext]; exact h), hbars, hnext]

/-- With small counts the bound checked in 32 bits is one on the counts themselves. -/
theorem Hook.Accepted.used_le' {i : ℕ} {hook : Hook} {next : Option Hook}
    (h : hook.Accepted i next) (hhook : hook.vocalOverBars.toNat ≤ 18 ∧ hook.fullBars.toNat ≤ 18)
    (hnext : ∀ n, next = some n → n.vocalOverBars.toNat ≤ 18) :
    hook.bars + (next.map (·.vocalOverBars.toNat)).getD 0 ≤ 18 := by
  have hsmall : (next.map (·.vocalOverBars.toNat)).getD 0 ≤ 18 := by
    cases next with
    | none => exact Nat.zero_le _
    | some n => exact hnext n rfl
  have hle := UInt32.le_iff_toNat_le.mp h.used_le
  rw [used_toNat (by unfold Hook.bars; omega)] at hle
  exact hle

theorem room_of_accepted {i : ℕ} {prev : Option Hook} {hooks : List Hook}
    (h : HooksAccepted i hooks) (hsmall : SmallCounts hooks) (hfirst : prev = none → i = 0)
    (hprev : ∀ q, prev = some q → 0 < q.nativeBpm ∧
      q.bars + (hooks.head?.map (·.vocalOverBars.toNat)).getD 0 ≤ 18) : Room prev hooks := by
  induction hooks generalizing i prev with
  | nil => exact trivial
  | cons hook rest ih =>
    obtain ⟨haccepted, hrest⟩ := h
    have hused := haccepted.used_le' (hsmall hook List.mem_cons_self) fun n hn =>
      (hsmall n (List.mem_cons_of_mem _ (List.mem_of_mem_head? hn))).1
    refine ⟨haccepted.bpm_pos, ?_, by omega, ?_, ?_⟩
    · exact Nat.pos_of_ne_zero fun hzero => haccepted.full_ne_zero (UInt32.toNat_inj.mp hzero)
    · cases prev with
      | none =>
        show hook.vocalOverBars.toNat = 0
        rw [haccepted.first_over (hfirst rfl)]
        rfl
      | some q => exact hprev q rfl
    · refine ih hrest (fun n hn => hsmall n (List.mem_cons_of_mem _ hn))
        (fun hnone => by cases hnone) fun q hq => ?_
      cases hq
      exact ⟨haccepted.bpm_pos, hused⟩

theorem HooksAccepted.get {i : ℕ} {hooks : List Hook} (h : HooksAccepted i hooks) {j : ℕ}
    {hook : Hook} (hj : hooks[j]? = some hook) : hook.Accepted (i + j) hooks[j + 1]? := by
  induction hooks generalizing i j with
  | nil => cases hj
  | cons first rest ih =>
    cases j with
    | zero =>
      cases hj
      simpa [List.head?_eq_getElem?] using h.1
    | succ j =>
      have hlater := ih h.2 hj
      rwa [Nat.add_right_comm] at hlater

/-- The layers of an accepted plan stay inside what is separated exactly when its hooks' counts
are no larger than the region and the chapter's bars fit the counter. -/
theorem staysSeparated_iff {p : Plan} (h : p.validate = .ok ()) (stemDirs : ℕ → String) :
    StaysSeparated p stemDirs ↔ SmallCounts p.hooks ∧ barsOf p.hooks < 2 ^ 32 := by
  obtain ⟨-, -, haccepted⟩ := validate_ok h
  constructor
  · intro hstays
    constructor
    · intro hook hhook
      obtain ⟨i, hi⟩ := List.mem_iff_getElem?.mp hhook
      have hle := UInt32.le_iff_toNat_le.mp (haccepted.get hi).used_le
      rw [hstays.used i hook hi] at hle
      have hle : hook.bars ≤ 18 := (Nat.le_add_right _ _).trans hle
      unfold Hook.bars at hle
      omega
    · rw [← hstays.total]
      exact UInt32.toNat_lt _
  · rintro ⟨hsmall, hfit⟩
    have hroom : Room none p.hooks :=
      room_of_accepted haccepted hsmall (fun _ => rfl) fun q hq => by cases hq
    have hfit' : (0 : UInt32).toNat + barsOf p.hooks < 2 ^ 32 := by simpa using hfit
    obtain ⟨hin, htiles, horder⟩ := layersFrom_spec p stemDirs List.drop_zero
      (fun q hq => by cases hq) hroom hfit'
    rw [UInt32.toNat_zero, Nat.zero_add] at htiles
    refine ⟨?_, hin, htiles, horder, fun i hook hi => used_toNat ?_⟩
    · rw [Plan.totalBars, totalBars_toNat hfit', UInt32.toNat_zero, Nat.zero_add]
    · have hused := (haccepted.get hi).used_le' (hsmall hook (List.mem_of_getElem? hi)) fun n hn =>
        (hsmall n (List.mem_of_getElem? hn)).1
      omega

section Songs

def songA : Hook where
  entryId := "a"
  path := "/m/a.mp4"
  landingS := 20
  nativeBpm := 100
  semitones := 0
  vocalOverBars := 0
  fullBars := 4

def songB : Hook where
  entryId := "b"
  path := "/m/b.mp4"
  landingS := 20
  nativeBpm := 130
  semitones := -2
  vocalOverBars := 2
  fullBars := 4

def twoSongs : Plan where
  bpm := 120
  key := "A minor"
  camelot := "8A"
  barSeconds := 2
  hooks := [songA, songB]
  cuts := [⟨"a", 20, 0, 8, 833 / 1000⟩, ⟨"b", 20, 8, 12, 1083 / 1000⟩]
  output := "/out/chapter.mp4"

def stemsIn (i : ℕ) : String := "/cache/stems/" ++ toString i

theorem twoSongs_staysSeparated : StaysSeparated twoSongs stemsIn :=
  (staysSeparated_iff (by decide +kernel) stemsIn).mpr ⟨by decide, by decide⟩

/-- A vocal-over of all but one of the bars a counter holds: every sum it is in comes to zero. -/
def wrapped : Plan :=
  { twoSongs with
    hooks := [{ songA with fullBars := 1 },
      { songB with vocalOverBars := 4294967295, fullBars := 1 }]
    cuts := [⟨"a", 20, 0, 2, 833 / 1000⟩] }

theorem wrapped_leaves_region : wrapped.validate = .ok () ∧ wrapped.totalBars = 1 ∧
    barsOf wrapped.hooks = 4294967297 ∧ ¬ StaysSeparated wrapped stemsIn := by
  have htotal : wrapped.totalBars = 1 := by decide
  have hbars : barsOf wrapped.hooks = 4294967297 := by decide
  refine ⟨by decide +kernel, htotal, hbars, fun hstays => ?_⟩
  have hsum := hstays.total
  rw [htotal, hbars] at hsum
  exact absurd hsum (by decide)

end Songs

end EtvStation.Render
