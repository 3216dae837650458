import EtvStation.Render.Interleave
import Mathlib.Algebra.Order.BigOperators.Group.List

/-! Keeping rendered chapters and their stems under a size cap: stems no live job refers to go
first, then chapters that have aired, the one that aired first in front. -/
namespace EtvStation.Render

/-- The cache on disk, sizes in bytes: the output files, and the stem directories in order. -/
structure Disk where
  files : String → Option ℕ
  stemDirs : List String
  dirBytes : String → ℕ
  distinct : stemDirs.Nodup

/-- Where the filesystem does not do as it is told: the files it keeps, what at most is left of a
directory it does not remove whole, and the jobs whose state it does not write. -/
structure Faults where
  keeps : String → Bool := fun _ => false
  leaves : String → Option ℕ := fun _ => none
  unwritable : String → Bool := fun _ => false

def isLive (job : JobState) : Bool :=
  job.status = .queued || job.status = .running || job.status = .done

/-- A queued or running job records its stems only when it finishes. -/
def isInFlight (job : JobState) : Bool := job.status = .queued || job.status = .running

namespace Disk

def outputSize (disk : Disk) (job : JobState) : ℕ :=
  if job.status = .done then (disk.files job.output).getD 0 else 0

def stemsBytes (disk : Disk) : ℕ := (disk.stemDirs.map disk.dirBytes).sum

/-- Bytes the cache holds: every `done` chapter's file and every stem directory. -/
def usedBytes (disk : Disk) (jobs : List JobState) : ℕ :=
  (jobs.map disk.outputSize).sum + disk.stemsBytes

/-- The stem directories no live job refers to; none while a job is in flight. -/
def orphansOf (disk : Disk) (jobs : List JobState) : List String :=
  if jobs.any isInFlight then []
  else
    let keep := (jobs.filter isLive).flatMap (·.stems)
    disk.stemDirs.filter fun d => !keep.contains d

def removeFile (disk : Disk) (output : String) : Disk :=
  { disk with files := Function.update disk.files output none }

def removeDir (disk : Disk) (faults : Faults) (d : String) : Disk :=
  match faults.leaves d with
  | none => { disk with stemDirs := disk.stemDirs.erase d, distinct := disk.distinct.erase d }
  | some n => { disk with dirBytes := Function.update disk.dirBytes d (min n (disk.dirBytes d)) }

end Disk

/-- What `enforce_cap` holds while it runs: its own copies of the jobs and of the total, beside the
files they are about. -/
structure Sweep where
  disk : Disk
  total : ℕ
  jobs : List JobState
  states : BTreeMap String JobState
  evicted : List String

namespace Sweep

def removeStem (faults : Faults) (s : Sweep) (d : String) : Sweep :=
  { s with
    disk := s.disk.removeDir faults d
    total := if (faults.leaves d).isNone then s.total - s.disk.dirBytes d else s.total }

def removeOrphans (faults : Faults) (s : Sweep) : Sweep :=
  (s.disk.orphansOf s.jobs).foldl (removeStem faults) s

def marked (job : JobState) (jobs : List JobState) : List JobState :=
  jobs.map fun j => if j.id = job.id then j.evict else j

/-- Evict a chapter, and the stems only it referred to. A file that is already gone counts as
removed, and a state that cannot be written is passed over. -/
def evict (faults : Faults) (s : Sweep) (job : JobState) : Sweep :=
  if faults.keeps job.output && (s.disk.files job.output).isSome then s
  else
    removeOrphans faults
      { disk := s.disk.removeFile job.output
        total := s.total - s.disk.outputSize job
        jobs := marked job s.jobs
        states := if faults.unwritable job.id then s.states else s.states.put job.id job.evict
        evicted := s.evicted ++ [job.id] }

/-- `faults k` is what goes wrong at the `k`-th chapter. -/
def evictAll (faults : ℕ → Faults) (capBytes : ℕ) : ℕ → List JobState → Sweep → Sweep
  | _, [], s => s
  | k, job :: rest, s =>
    if s.total ≤ capBytes then s else evictAll faults capBytes (k + 1) rest (s.evict (faults k) job)

end Sweep

/-- What `enforce_cap` reads before it removes anything. -/
def opening (q : Queue) (disk : Disk) : Sweep :=
  let jobs := inOrder (q.states.map Prod.snd)
  ⟨disk, disk.usedBytes jobs, jobs, q.states, []⟩

def enforceCap (faults : ℕ → Faults) (q : Queue) (disk : Disk) (capBytes : ℕ) (now : ℤ) : Sweep :=
  let s := opening q disk
  if s.total ≤ capBytes then s
  else (s.removeOrphans (faults 0)).evictAll faults capBytes 1 (candidates s.jobs now)

/-- Each file is one job's, and a directory is removed whole or left whole. -/
structure Exact (faults : ℕ → Faults) (disk : Disk) (jobs : List JobState) : Prop where
  outputs : ((jobs.filter fun j => j.status = .done).map (·.output)).Nodup
  whole : ∀ k d n, (faults k).leaves d = some n → disk.dirBytes d ≤ n

/-- What stands between a sweep and the one it came from by removing stem directories. -/
structure Cleared (faults : Faults) (ds : List String) (s s' : Sweep) : Prop where
  jobs : s'.jobs = s.jobs
  states : s'.states = s.states
  evicted : s'.evicted = s.evicted
  files : s'.disk.files = s.disk.files
  dirs : s'.disk.stemDirs.Sublist s.disk.stemDirs
  kept : ∀ d, d ∉ ds → (d ∈ s.disk.stemDirs → d ∈ s'.disk.stemDirs) ∧
    s'.disk.dirBytes d = s.disk.dirBytes d
  refused : ∀ d ∈ ds, d ∈ s'.disk.stemDirs → (faults.leaves d).isSome
  total : s.disk.usedBytes s.jobs ≤ s.total → s'.disk.usedBytes s'.jobs ≤ s'.total
  exact_ : (∀ d n, faults.leaves d = some n → s.disk.dirBytes d ≤ n) →
    s'.disk.dirBytes = s.disk.dirBytes ∧
      (s.total = s.disk.usedBytes s.jobs → s'.total = s'.disk.usedBytes s'.jobs)

theorem usedBytes_eq {disk' : Disk} (disk : Disk) (h : disk'.files = disk.files)
    (jobs : List JobState) :
    disk'.usedBytes jobs = (jobs.map disk.outputSize).sum + disk'.stemsBytes := by
  have hsize : disk'.outputSize = disk.outputSize := by
    funext job
    rw [Disk.outputSize, Disk.outputSize, h]
  rw [Disk.usedBytes, hsize]

theorem removeDir_files (disk : Disk) (faults : Faults) (d : String) :
    (disk.removeDir faults d).files = disk.files := by
  unfold Disk.removeDir
  cases faults.leaves d <;> rfl

theorem removeDir_gone {disk : Disk} {faults : Faults} {d : String}
    (h : faults.leaves d = none) : (disk.removeDir faults d).stemDirs = disk.stemDirs.erase d ∧
      (disk.removeDir faults d).dirBytes = disk.dirBytes := by
  rw [Disk.removeDir, h]
  exact ⟨rfl, rfl⟩

theorem removeDir_left {disk : Disk} {faults : Faults} {d : String} {n : ℕ}
    (h : faults.leaves d = some n) : (disk.removeDir faults d).stemDirs = disk.stemDirs ∧
      (disk.removeDir faults d).dirBytes =
        Function.update disk.dirBytes d (min n (disk.dirBytes d)) := by
  rw [Disk.removeDir, h]
  exact ⟨rfl, rfl⟩

theorem removeDir_bytes_le (disk : Disk) (faults : Faults) (d d' : String) :
    (disk.removeDir faults d).dirBytes d' ≤ disk.dirBytes d' := by
  cases h : faults.leaves d with
  | none => rw [(removeDir_gone h).2]
  | some n =>
    rw [(removeDir_left h).2, Function.update_apply]
    split_ifs with heq
    · exact heq ▸ min_le_right _ _
    · exact le_rfl

theorem removeStem_cleared (faults : Faults) {s : Sweep} {d : String}
    (hd : d ∈ s.disk.stemDirs) : Cleared faults [d] s (s.removeStem faults d) := by
  have hsum := List.sum_map_erase s.disk.dirBytes hd
  have hused : (s.disk.removeDir faults d).usedBytes s.jobs =
      (s.jobs.map s.disk.outputSize).sum + (s.disk.removeDir faults d).stemsBytes :=
    usedBytes_eq s.disk (removeDir_files _ _ _) _
  have hwas : s.disk.usedBytes s.jobs =
      (s.jobs.map s.disk.outputSize).sum + s.disk.stemsBytes := rfl
  have hstems : s.disk.stemsBytes = (s.disk.stemDirs.map s.disk.dirBytes).sum := rfl
  cases hleaves : faults.leaves d with
  | none =>
    obtain ⟨hdirs, hbytes⟩ := removeDir_gone hleaves
    have htotal : (s.removeStem faults d).total = s.total - s.disk.dirBytes d := by
      rw [Sweep.removeStem, hleaves]
      rfl
    rw [Disk.stemsBytes, hdirs, hbytes] at hused
    constructor
    case jobs => rfl
    case states => rfl
    case evicted => rfl
    case files => exact removeDir_files _ _ _
    case dirs => exact hdirs ▸ List.erase_sublist
    case kept =>
      intro d' hne
      rw [List.mem_singleton] at hne
      exact ⟨fun hin => hdirs ▸ (List.mem_erase_of_ne hne).mpr hin, congrFun hbytes d'⟩
    case refused =>
      intro d' hd' hin
      obtain rfl := List.mem_singleton.mp hd'
      change d' ∈ (s.disk.removeDir faults d').stemDirs at hin
      rw [hdirs] at hin
      exact absurd hin s.disk.distinct.not_mem_erase
    case total =>
      intro h
      change (s.disk.removeDir faults d).usedBytes s.jobs ≤ _
      omega
    case exact_ =>
      refine fun _ => ⟨hbytes, fun h => ?_⟩
      change _ = (s.disk.removeDir faults d).usedBytes s.jobs
      omega
  | some n =>
    obtain ⟨hdirs, hbytes⟩ := removeDir_left hleaves
    have htotal : (s.removeStem faults d).total = s.total := by
      rw [Sweep.removeStem, hleaves]
      rfl
    have hless : (s.disk.removeDir faults d).stemsBytes ≤ s.disk.stemsBytes := by
      rw [Disk.stemsBytes, Disk.stemsBytes, hdirs]
      exact List.sum_le_sum fun d' _ => removeDir_bytes_le _ _ _ _
    constructor
    case jobs => rfl
    case states => rfl
    case evicted => rfl
    case files => exact removeDir_files _ _ _
    case dirs => exact hdirs ▸ List.Sublist.refl _
    case kept =>
      intro d' hne
      rw [List.mem_singleton] at hne
      refine ⟨fun hin => hdirs ▸ hin, ?_⟩
      change (s.disk.removeDir faults d).dirBytes d' = _
      rw [hbytes, Function.update_of_ne hne]
    case refused =>
      intro d' hd' _
      obtain rfl := List.mem_singleton.mp hd'
      rw [hleaves]
      rfl
    case total =>
      intro h
      change (s.disk.removeDir faults d).usedBytes s.jobs ≤ _
      omega
    case exact_ =>
      intro hwhole
      have hsame : (s.disk.removeDir faults d).dirBytes = s.disk.dirBytes := by
        rw [hbytes, min_eq_right (hwhole d n hleaves), Function.update_eq_self]
      refine ⟨hsame, fun h => ?_⟩
      change _ = (s.disk.removeDir faults d).usedBytes s.jobs
      rw [htotal, h, hused, hwas, hstems, Disk.stemsBytes, hsame, hdirs]

theorem Cleared.cons {faults : Faults} {d : String} {ds : List String} {s s₁ s₂ : Sweep}
    (h₁ : Cleared faults [d] s s₁) (h₂ : Cleared faults ds s₁ s₂) :
    Cleared faults (d :: ds) s s₂ := by
  constructor
  case jobs => exact h₂.jobs.trans h₁.jobs
  case states => exact h₂.states.trans h₁.states
  case evicted => exact h₂.evicted.trans h₁.evicted
  case files => exact h₂.files.trans h₁.files
  case dirs => exact h₂.dirs.trans h₁.dirs
  case kept =>
    intro d' hne
    rw [List.mem_cons, not_or] at hne
    obtain ⟨hin₁, hbytes₁⟩ := h₁.kept d' (by simpa using hne.1)
    obtain ⟨hin₂, hbytes₂⟩ := h₂.kept d' hne.2
    exact ⟨fun hin => hin₂ (hin₁ hin), hbytes₂.trans hbytes₁⟩
  case refused =>
    intro d' hd' hin
    rcases List.mem_cons.mp hd' with rfl | hd'
    · exact h₁.refused d' List.mem_cons_self (h₂.dirs.subset hin)
    · exact h₂.refused d' hd' hin
  case total => exact fun h => h₂.total (h₁.total h)
  case exact_ =>
    intro hwhole
    obtain ⟨hbytes₁, htotal₁⟩ := h₁.exact_ hwhole
    obtain ⟨hbytes₂, htotal₂⟩ := h₂.exact_ fun d' n hn => hbytes₁ ▸ hwhole d' n hn
    exact ⟨hbytes₂.trans hbytes₁, fun h => htotal₂ (htotal₁ h)⟩

theorem removeStems_cleared (faults : Faults) {ds : List String} (hnodup : ds.Nodup) {s : Sweep}
    (h : ∀ d ∈ ds, d ∈ s.disk.stemDirs) :
    Cleared faults ds s (ds.foldl (Sweep.removeStem faults) s) := by
  induction ds generalizing s with
  | nil =>
    refine ⟨rfl, rfl, rfl, rfl, List.Sublist.refl _, fun d _ => ⟨id, rfl⟩, ?_, id, fun _ => ?_⟩
    · exact fun d hd => absurd hd List.not_mem_nil
    · exact ⟨rfl, id⟩
  | cons d ds ih =>
    obtain ⟨hnot, hrest⟩ := List.nodup_cons.mp hnodup
    have hfirst := removeStem_cleared faults (h d List.mem_cons_self)
    refine hfirst.cons (ih hrest fun d' hd' => ?_)
    refine (hfirst.kept d' ?_).1 (h d' (List.mem_cons_of_mem _ hd'))
    rw [List.mem_singleton]
    exact fun heq => hnot (heq ▸ hd')

theorem mem_orphansOf {disk : Disk} {jobs : List JobState} {d : String} :
    d ∈ disk.orphansOf jobs ↔ d ∈ disk.stemDirs ∧ (∀ j ∈ jobs, isInFlight j = false) ∧
      ∀ j ∈ jobs, isLive j → d ∉ j.stems := by
  unfold Disk.orphansOf
  split_ifs with hflight
  · obtain ⟨j, hj, hj'⟩ := List.any_eq_true.mp hflight
    refine ⟨fun h => absurd h List.not_mem_nil, fun h => ?_⟩
    rw [h.2.1 j hj] at hj'
    cases hj'
  · rw [List.any_eq_true] at hflight
    simp only [List.mem_filter, Bool.not_eq_true', List.contains_eq_mem, decide_eq_false_iff_not,
      List.mem_flatMap, not_exists, not_and, and_imp]
    constructor
    · intro h
      exact ⟨h.1, fun j hj => Bool.eq_false_iff.mpr fun hj' => hflight ⟨j, hj, hj'⟩, h.2⟩
    · exact fun h => ⟨h.1, h.2.2⟩

theorem removeOrphans_cleared (faults : Faults) (s : Sweep) :
    Cleared faults (s.disk.orphansOf s.jobs) s (s.removeOrphans faults) := by
  have hsub : (s.disk.orphansOf s.jobs).Sublist s.disk.stemDirs := by
    unfold Disk.orphansOf
    split_ifs
    · exact List.nil_sublist _
    · exact List.filter_sublist
  exact removeStems_cleared faults (hsub.nodup s.disk.distinct) fun d hd => hsub.subset hd

/-- What a sweep has come to once the chapters of `seen` had their turn, those of `gone` evicted. -/
structure Swept (faults : ℕ → Faults) (q : Queue) (disk : Disk) (jobs seen gone : List JobState)
    (s : Sweep) : Prop where
  evicted : s.evicted = gone.map (·.id)
  turns : gone.Sublist seen
  done : ∀ j ∈ seen, j ∈ jobs ∧ j.status = .done
  /-- A chapter that had its turn is evicted, or its file was kept. -/
  refused : ∀ j ∈ seen, j ∈ gone ∨ ∃ k, (faults k).keeps j.output
  copies : s.jobs = jobs.map fun j => if j ∈ gone then j.evict else j
  /-- The files that go are those of the evicted. -/
  files : ∀ path,
    s.disk.files path = if path ∈ gone.map (·.output) then none else disk.files path
  /-- Stems go only with no job in flight, and only those no chapter left refers to. -/
  stems : ∀ d ∈ disk.stemDirs, (d ∈ s.disk.stemDirs ∧ s.disk.dirBytes d = disk.dirBytes d) ∨
    (∀ j ∈ jobs, isInFlight j = false) ∧ ∀ j ∈ jobs, j.status = .done → d ∈ j.stems → j ∈ gone
  keyed : s.states.Keyed
  states : ∀ id, s.states.get id = q.states.get id ∨
    ∃ j ∈ gone, j.id = id ∧ s.states.get id = some j.evict
  /-- The cache holds no more than it is taken to. -/
  total : s.disk.usedBytes s.jobs ≤ s.total
  exact_ : Exact faults disk jobs →
    s.disk.dirBytes = disk.dirBytes ∧ s.total = s.disk.usedBytes s.jobs

/-- The stems no live job refers to that are still there are ones the filesystem kept. -/
def Clean (faults : ℕ → Faults) (s : Sweep) : Prop :=
  ∀ d ∈ s.disk.orphansOf s.jobs, ∃ k, ((faults k).leaves d).isSome

section Swept

variable {faults : ℕ → Faults} {q : Queue} {disk : Disk} {jobs seen gone : List JobState}
  {s : Sweep}

theorem Swept.removeOrphans (h : Swept faults q disk jobs seen gone s) (k : ℕ) :
    Swept faults q disk jobs seen gone (s.removeOrphans (faults k)) ∧
      Clean faults (s.removeOrphans (faults k)) := by
  have hclear := removeOrphans_cleared (faults k) s
  refine ⟨?_, fun d hd => ⟨k, ?_⟩⟩
  · constructor
    case evicted => exact hclear.evicted.trans h.evicted
    case turns => exact h.turns
    case done => exact h.done
    case refused => exact h.refused
    case copies => exact hclear.jobs.trans h.copies
    case files => exact fun path => (congrFun hclear.files path).trans (h.files path)
    case stems =>
      intro d hd
      rcases h.stems d hd with ⟨hin, hbytes⟩ | hleft
      · by_cases horphan : d ∈ s.disk.orphansOf s.jobs
        · obtain ⟨-, hflight, hlive⟩ := mem_orphansOf.mp horphan
          have hcopy : ∀ j ∈ jobs, (if j ∈ gone then j.evict else j) ∈ s.jobs := fun j hj => by
            rw [h.copies]
            exact List.mem_map.mpr ⟨j, hj, rfl⟩
          refine Or.inr ⟨fun j hj => ?_, fun j hj hdone hstem => ?_⟩
          · by_cases hgone : j ∈ gone
            · rw [isInFlight, (h.done j (h.turns.subset hgone)).2]
              rfl
            · have := hflight _ (hcopy j hj)
              rwa [if_neg hgone] at this
          · by_contra hgone
            have hstays := hcopy j hj
            rw [if_neg hgone] at hstays
            exact hlive j hstays (by rw [isLive, hdone]; rfl) hstem
        · obtain ⟨hstays, hsame⟩ := hclear.kept d horphan
          exact Or.inl ⟨hstays hin, hsame.trans hbytes⟩
      · exact Or.inr hleft
    case keyed => exact hclear.states.symm ▸ h.keyed
    case states => exact hclear.states.symm ▸ h.states
    case total => exact hclear.total h.total
    case exact_ =>
      intro hexact
      obtain ⟨hbytes, htotal⟩ := h.exact_ hexact
      obtain ⟨hbytes', htotal'⟩ := hclear.exact_ fun d n hn => hbytes ▸ hexact.whole k d n hn
      exact ⟨hbytes'.trans hbytes, htotal' htotal⟩
  · obtain ⟨hin, hflight, hlive⟩ := mem_orphansOf.mp hd
    rw [hclear.jobs] at hflight hlive
    refine hclear.refused d (mem_orphansOf.mpr ⟨hclear.dirs.subset hin, hflight, hlive⟩) hin

theorem Swept.ids (h : Swept faults q disk jobs seen gone s) :
    s.jobs.map (·.id) = jobs.map (·.id) := by
  rw [h.copies, List.map_map]
  refine List.map_congr_left fun j _ => ?_
  rw [Function.comp_apply]
  split_ifs <;> rfl

theorem Swept.marked (h : Swept faults q disk jobs seen gone s)
    (hids : (jobs.map (·.id)).Nodup) {job : JobState} (hjob : job ∈ jobs) :
    Sweep.marked job s.jobs = jobs.map fun j => if j ∈ gone ++ [job] then j.evict else j := by
  rw [Sweep.marked, h.copies, List.map_map]
  refine List.map_congr_left fun j hj => ?_
  have hsame : j.id = job.id ↔ j = job :=
    ⟨fun hid => List.inj_on_of_nodup_map hids hj hjob hid, fun heq => heq ▸ rfl⟩
  by_cases hgone : j ∈ gone
  · simp only [Function.comp_apply, hgone, if_true, List.mem_append, true_or]
    split_ifs <;> rfl
  · simp only [Function.comp_apply, hgone, if_false, List.mem_append, false_or,
      List.mem_singleton, hsame]

theorem outputSize_removeFile (disk : Disk) (output : String) (job : JobState) :
    (disk.removeFile output).outputSize job =
      if job.output = output then 0 else disk.outputSize job := by
  have hfiles : (disk.removeFile output).files = Function.update disk.files output none := rfl
  rw [Disk.outputSize, hfiles, Function.update_apply]
  split_ifs <;> first | rfl | simp_all [Disk.outputSize]

/-- What the cache holds without a chapter's file. -/
theorem usedBytes_removeFile {job : JobState} (hjob : job ∈ s.jobs) :
    (s.disk.removeFile job.output).usedBytes (Sweep.marked job s.jobs) +
        s.disk.outputSize job ≤ s.disk.usedBytes s.jobs ∧
      ((∀ j ∈ s.jobs.erase job, j.id ≠ job.id ∧ (j.status = .done → j.output ≠ job.output)) →
        (s.disk.removeFile job.output).usedBytes (Sweep.marked job s.jobs) +
          s.disk.outputSize job = s.disk.usedBytes s.jobs) := by
  set size : JobState → ℕ := fun j =>
    (s.disk.removeFile job.output).outputSize (if j.id = job.id then j.evict else j) with hsize
  have hused : (s.disk.removeFile job.output).usedBytes (Sweep.marked job s.jobs) =
      (s.jobs.map size).sum + s.disk.stemsBytes := by
    rw [Disk.usedBytes, Sweep.marked, List.map_map]
    rfl
  have hgone : size job = 0 := by
    simp only [hsize, if_true]
    rfl
  have hle : ∀ j, size j ≤ s.disk.outputSize j := by
    intro j
    simp only [hsize]
    split_ifs
    · exact Nat.zero_le _
    · rw [outputSize_removeFile]
      split_ifs
      · exact Nat.zero_le _
      · exact le_rfl
  have hwas := List.sum_map_erase s.disk.outputSize hjob
  have hnow := List.sum_map_erase size hjob
  have hrest : ((s.jobs.erase job).map size).sum ≤
      ((s.jobs.erase job).map s.disk.outputSize).sum := List.sum_le_sum fun j _ => hle j
  have htotal : s.disk.usedBytes s.jobs =
      (s.jobs.map s.disk.outputSize).sum + s.disk.stemsBytes := rfl
  refine ⟨by omega, fun hothers => ?_⟩
  have hsame : (s.jobs.erase job).map size = (s.jobs.erase job).map s.disk.outputSize := by
    refine List.map_congr_left fun j hj => ?_
    obtain ⟨hid, hout⟩ := hothers j hj
    simp only [hsize, if_neg hid]
    rw [outputSize_removeFile]
    split_ifs with hsameOut
    · rw [Disk.outputSize, if_neg fun hdone => hout hdone hsameOut]
    · rfl
  rw [hsame] at hnow
  omega

theorem Swept.removeFile (h : Swept faults q disk jobs seen gone s)
    (hids : (jobs.map (·.id)).Nodup) {job : JobState} (hjob : job ∈ jobs)
    (hdone : job.status = .done) (hnew : job ∉ seen) (unwritable : Bool) :
    Swept faults q disk jobs (seen ++ [job]) (gone ++ [job])
      { disk := s.disk.removeFile job.output
        total := s.total - s.disk.outputSize job
        jobs := Sweep.marked job s.jobs
        states := if unwritable then s.states else s.states.put job.id job.evict
        evicted := s.evicted ++ [job.id] } := by
  have hnot : job ∉ gone := fun hin => hnew (h.turns.subset hin)
  have hcopy : job ∈ s.jobs := by
    rw [h.copies]
    exact List.mem_map.mpr ⟨job, hjob, if_neg hnot⟩
  obtain ⟨hless, hexactly⟩ := usedBytes_removeFile hcopy
  have hmarked := h.marked hids hjob
  constructor
  case evicted => rw [h.evicted, List.map_append]; rfl
  case turns => exact h.turns.append (List.Sublist.refl _)
  case done =>
    intro j hj
    rcases List.mem_append.mp hj with hj | hj
    · exact h.done j hj
    · exact List.mem_singleton.mp hj ▸ ⟨hjob, hdone⟩
  case refused =>
    intro j hj
    rcases List.mem_append.mp hj with hj | hj
    · exact (h.refused j hj).imp_left fun hin => List.mem_append_left _ hin
    · exact Or.inl (List.mem_append_right _ hj)
  case copies => exact hmarked
  case files =>
    intro path
    change Function.update s.disk.files job.output none path = _
    rw [Function.update_apply, h.files, List.map_append, List.map_singleton]
    by_cases hpath : path = job.output
    · rw [if_pos hpath, if_pos (List.mem_append_right _ (List.mem_singleton.mpr hpath))]
    · simp only [if_false, List.mem_append, List.mem_singleton, hpath, or_false]
  case stems =>
    intro d hd
    refine (h.stems d hd).imp_right fun hleft => ⟨hleft.1, fun j hj hj' hstem => ?_⟩
    exact List.mem_append_left _ (hleft.2 j hj hj' hstem)
  case keyed =>
    dsimp only
    split_ifs
    · exact h.keyed
    · exact BTreeMap.put_keyed h.keyed _ _
  case states =>
    intro id
    have hold : s.states.get id = q.states.get id ∨
        ∃ j ∈ gone ++ [job], j.id = id ∧ s.states.get id = some j.evict :=
      (h.states id).imp_right fun hj => by
        obtain ⟨j, hin, hj⟩ := hj
        exact ⟨j, List.mem_append_left _ hin, hj⟩
    dsimp only
    split_ifs
    · exact hold
    · rw [BTreeMap.get_put h.keyed]
      split_ifs with hid
      · exact Or.inr ⟨job, List.mem_append_right _ List.mem_cons_self, hid.symm, rfl⟩
      · exact hold
  case total =>
    have := h.total
    dsimp only
    omega
  case exact_ =>
    intro hexact
    obtain ⟨hbytes, htotal⟩ := h.exact_ hexact
    have hnodup : s.jobs.Nodup := List.Nodup.of_map _ (h.ids ▸ hids)
    refine ⟨hbytes, ?_⟩
    have hsame := hexactly fun j hj => ?_
    · dsimp only
      omega
    · obtain ⟨hne, hin⟩ := hnodup.mem_erase_iff.mp hj
      refine ⟨fun hid => hne (List.inj_on_of_nodup_map (h.ids ▸ hids) hin hcopy hid), ?_⟩
      -- A copy that is still done is the job itself.
      intro hj' hout
      rw [h.copies] at hin
      obtain ⟨j', hj'in, rfl⟩ := List.mem_map.mp hin
      split_ifs at hj' hout hne with hgone
      · cases hj'
      · refine hne (List.inj_on_of_nodup_map hexact.outputs ?_ ?_ hout)
        · exact List.mem_filter.mpr ⟨hj'in, by simpa using hj'⟩
        · exact List.mem_filter.mpr ⟨hjob, by simpa using hdone⟩

theorem Swept.evict (h : Swept faults q disk jobs seen gone s) (hclean : Clean faults s)
    (hids : (jobs.map (·.id)).Nodup) {job : JobState} (hjob : job ∈ jobs)
    (hdone : job.status = .done) (hnew : job ∉ seen) (k : ℕ) :
    Clean faults (s.evict (faults k) job) ∧
      (Swept faults q disk jobs (seen ++ [job]) gone (s.evict (faults k) job) ∨
        Swept faults q disk jobs (seen ++ [job]) (gone ++ [job]) (s.evict (faults k) job)) := by
  unfold Sweep.evict
  by_cases hkept : ((faults k).keeps job.output && (s.disk.files job.output).isSome) = true
  · rw [if_pos hkept]
    refine ⟨hclean, Or.inl { h with turns := ?_, done := ?_, refused := ?_ }⟩
    · exact h.turns.trans (List.sublist_append_left _ _)
    · intro j hj
      rcases List.mem_append.mp hj with hj | hj
      · exact h.done j hj
      · exact List.mem_singleton.mp hj ▸ ⟨hjob, hdone⟩
    · intro j hj
      rcases List.mem_append.mp hj with hj | hj
      · exact h.refused j hj
      · exact List.mem_singleton.mp hj ▸ Or.inr ⟨k, (Bool.and_eq_true _ _ ▸ hkept).1⟩
  · rw [if_neg hkept]
    obtain ⟨hswept, hclean'⟩ := (h.removeFile hids hjob hdone hnew _).removeOrphans k
    exact ⟨hclean', Or.inr hswept⟩

/-- What the loop holds once the chapters of a list had their turns, the first of them the `k`-th. -/
def Sweep.turns (faults : ℕ → Faults) : ℕ → List JobState → Sweep → Sweep
  | _, [], s => s
  | k, job :: rest, s => turns faults (k + 1) rest (s.evict (faults k) job)

/-- The loop gave the chapters of `seen` their turns, each while its own total was over the cap. -/
structure Needed (faults : ℕ → Faults) (capBytes k : ℕ) (seen : List JobState)
    (s s' : Sweep) : Prop where
  ends : s' = s.turns faults k seen
  exceeds : ∀ before job after, seen = before ++ job :: after →
    capBytes < (s.turns faults k before).total

theorem Needed.cons {capBytes k : ℕ} {job : JobState} {s' : Sweep} (hover : capBytes < s.total)
    (h : Needed faults capBytes (k + 1) seen (s.evict (faults k) job) s') :
    Needed faults capBytes k (job :: seen) s s' := by
  refine ⟨h.ends, fun before j after heq => ?_⟩
  cases before with
  | nil => exact hover
  | cons first before =>
    obtain ⟨rfl, hrest⟩ := List.cons.inj heq
    exact h.exceeds before j after hrest

theorem Swept.evictAll (h : Swept faults q disk jobs seen gone s) (hclean : Clean faults s)
    (hids : (jobs.map (·.id)).Nodup) {capBytes : ℕ} {rest : List JobState} (hnodup : rest.Nodup)
    (hrest : ∀ j ∈ rest, j ∈ jobs ∧ j.status = .done ∧ j ∉ seen) (k : ℕ) :
    ∃ turned gone',
      Swept faults q disk jobs (seen ++ turned) gone' (s.evictAll faults capBytes k rest) ∧
      turned <+: rest ∧ Needed faults capBytes k turned s (s.evictAll faults capBytes k rest) ∧
      ((s.evictAll faults capBytes k rest).total ≤ capBytes ∨
        turned = rest ∧ Clean faults (s.evictAll faults capBytes k rest)) := by
  have hnone : ∀ before job after, ([] : List JobState) = before ++ job :: after →
      capBytes < (s.turns faults k before).total := fun before job after heq =>
    absurd heq (List.append_ne_nil_of_right_ne_nil _ (List.cons_ne_nil _ _)).symm
  induction rest generalizing seen gone s k with
  | nil =>
    refine ⟨[], gone, ?_, List.prefix_refl _, ⟨rfl, hnone⟩, Or.inr ⟨rfl, hclean⟩⟩
    rwa [List.append_nil]
  | cons job rest ih =>
    obtain ⟨hnot, hnodup⟩ := List.nodup_cons.mp hnodup
    obtain ⟨hjob, hdone, hnew⟩ := hrest job List.mem_cons_self
    rw [Sweep.evictAll]
    split_ifs with hunder
    · refine ⟨[], gone, ?_, List.nil_prefix, ⟨rfl, hnone⟩, Or.inl hunder⟩
      rwa [List.append_nil]
    · have hrest' : ∀ j ∈ rest, j ∈ jobs ∧ j.status = .done ∧ j ∉ seen ++ [job] := fun j hj => by
        obtain ⟨hin, hdone, hnew⟩ := hrest j (List.mem_cons_of_mem _ hj)
        refine ⟨hin, hdone, fun hseen => ?_⟩
        rcases List.mem_append.mp hseen with hseen | hseen
        · exact hnew hseen
        · exact hnot (List.mem_singleton.mp hseen ▸ hj)
      obtain ⟨hclean', hswept⟩ := h.evict hclean hids hjob hdone hnew k
      obtain ⟨gone₁, hswept⟩ : ∃ gone₁,
          Swept faults q disk jobs (seen ++ [job]) gone₁ (s.evict (faults k) job) :=
        hswept.elim (fun h => ⟨_, h⟩) fun h => ⟨_, h⟩
      obtain ⟨turned, gone', hall, hbegins, hneeded, hend⟩ := ih hswept hclean' hnodup hrest' (k + 1)
        fun before job after heq =>
          absurd heq (List.append_ne_nil_of_right_ne_nil _ (List.cons_ne_nil _ _)).symm
      refine ⟨job :: turned, gone', ?_, ?_, hneeded.cons (not_le.mp hunder), ?_⟩
      · rwa [List.append_cons]
      · exact (List.prefix_cons_inj job).mpr hbegins
      · exact hend.imp_right fun h => ⟨congrArg _ h.1, h.2⟩

end Swept

section Runs

/-- The world with its state files and the sidecar's place in the program replaced. -/
def World.standing (w : World) (states : BTreeMap String JobState) (sidecar : Sidecar) : World :=
  { w with queue := { w.queue with states := states }, sidecar := sidecar }

variable {w : World} {es : List Event} {states : BTreeMap String JobState}
  {sidecar sidecar' : Sidecar} {a : SidecarAct}

theorem World.Runs.silent
    (h : World.Runs (fun _ _ => True) (w.standing states sidecar) es)
    (hnext : sidecar.next { w.queue with states := states } a = some (sidecar', none)) :
    World.Runs (fun _ _ => True) (w.standing states sidecar') es := by
  have hmove : (w.standing states sidecar).move (.sidecar a) =
      some (w.standing states sidecar', none) := by
    rw [World.move, World.standing, hnext]
    rfl
  have hstep := h.step (a := .sidecar a) trivial (by rw [World.step, hmove])
  rwa [List.append_nil] at hstep

theorem World.Runs.stores {held : Option JobState} {job : JobState}
    (h : World.Runs (fun _ _ => True) (w.standing states sidecar) es)
    (hnext : sidecar.next { w.queue with states := states } a =
      some (sidecar', some (.state held job []))) :
    World.Runs (fun _ _ => True) (w.standing (states.put job.id job) sidecar') es := by
  have hmove : (w.standing states sidecar).move (.sidecar a) =
      some (w.standing states sidecar', some (.state held job [])) := by
    rw [World.move, World.standing, hnext]
    rfl
  have hstep := h.step (a := .sidecar a) trivial (by rw [World.step, hmove])
  have hsaid : ((w.standing states sidecar').queue.apply (.state held job [])).2 = [] := rfl
  rwa [hsaid, List.append_nil] at hstep

/-- The sidecar reads the directory with nobody else at work. -/
theorem World.Runs.lists {purpose : Purpose} {todo : List String} {got : List JobState}
    (h : World.Runs (fun _ _ => True) (w.standing states (.listing purpose todo got)) es) :
    World.Runs (fun _ _ => True) (w.standing states
      (purpose.listed (inOrder (got ++ todo.flatMap fun id => (states.get id).toList)))) es := by
  induction todo generalizing got with
  | nil =>
    rw [List.flatMap_nil, List.append_nil]
    exact h.silent (a := .proceed) rfl
  | cons id todo ih =>
    rw [List.flatMap_cons, ← List.append_assoc]
    exact ih (h.silent (a := .proceed) rfl)

theorem flatMap_get {states : BTreeMap String JobState} (h : states.Keyed) :
    (states.map Prod.fst).flatMap (fun id => (states.get id).toList) = states.map Prod.snd := by
  rw [List.flatMap_map]
  have hget : ∀ e ∈ states, (states.get e.1).toList = [e.2] := fun e he => by
    rw [BTreeMap.get, (Lib.lookup_eq_some_iff_mem h).mpr he]
    rfl
  rw [List.flatMap_congr hget, List.map_eq_flatMap]

theorem removeOrphans_states (faults : Faults) (s : Sweep) :
    (s.removeOrphans faults).states = s.states := (removeOrphans_cleared faults s).states

theorem World.Runs.rests {rest : List JobState}
    (h : World.Runs (fun _ _ => True) (w.standing states (.evicting rest)) es) :
    World.Runs (fun _ _ => True) (w.standing states .idle) es := by
  refine h.silent (a := .rest) ?_
  cases rest <;> rfl

/-- The loop is a run of the sidecar's own steps. -/
theorem World.Runs.evicts {s : Sweep} {rest : List JobState} {faults : ℕ → Faults} {capBytes : ℕ}
    (k : ℕ) (h : World.Runs (fun _ _ => True) (w.standing s.states (.evicting rest)) es) :
    World.Runs (fun _ _ => True)
      (w.standing (s.evictAll faults capBytes k rest).states .idle) es := by
  induction rest generalizing s k with
  | nil => exact h.rests
  | cons job rest ih =>
    rw [Sweep.evictAll]
    split_ifs with hunder
    · exact h.rests
    · refine ih (k + 1) ?_
      unfold Sweep.evict
      split_ifs with hkept hwritable
      · exact h.silent (a := .keep) rfl
      · rw [removeOrphans_states]
        exact h.silent (a := .fail) rfl
      · rw [removeOrphans_states]
        exact h.stores (a := .proceed) rfl

end Runs

section Cap

variable {w : World} {es : List Event}

theorem ids_nodup {q : Queue} (hq : q.Planned) :
    ((inOrder (q.states.map Prod.snd)).map (·.id)).Nodup := by
  have hperm : ((inOrder (q.states.map Prod.snd)).map (·.id)).Perm (q.states.map Prod.fst) := by
    refine ((List.perm_insertionSort _ _).map _).trans (List.Perm.of_eq ?_)
    rw [List.map_map]
    refine List.map_congr_left fun e he => ?_
    exact hq.named e.1 e.2 ((Lib.lookup_eq_some_iff_mem hq.statesKeyed).mpr he)
  exact hperm.nodup_iff.mpr hq.statesKeyed

theorem swept_init {q : Queue} (hq : q.Planned) (faults : ℕ → Faults) (disk : Disk)
    (jobs : List JobState) :
    Swept faults q disk jobs [] [] ⟨disk, disk.usedBytes jobs, jobs, q.states, []⟩ := by
  constructor
  case evicted => rfl
  case turns => exact List.Sublist.refl _
  case done => simp
  case refused => simp
  case copies => simp
  case files => simp
  case stems => exact fun d hd => Or.inl ⟨hd, rfl⟩
  case keyed => exact hq.statesKeyed
  case states => exact fun _ => Or.inl rfl
  case total => exact le_rfl
  case exact_ => exact fun _ => ⟨rfl, rfl⟩

theorem candidates_spec (jobs : List JobState) (now : ℤ) :
    (∀ j ∈ candidates jobs now, j.status = .done ∧ hasAired j now) ∧
      (candidates jobs now).Pairwise fun a b => a.airAt.getD 0 ≤ b.airAt.getD 0 := by
  refine ⟨fun j hj => ?_, List.pairwise_insertionSort _ _⟩
  have hin := (List.mem_filter.mp ((List.mem_insertionSort _).mp hj)).2
  simpa using hin

theorem World.Runs.listsCap (h : World.Runs (fun _ _ => True) w es)
    (hside : w.sidecar = .capping) (now : ℤ) :
    World.Runs (fun _ _ => True) (w.standing w.queue.states
      (.evicting (candidates (inOrder (w.queue.states.map Prod.snd)) now))) es := by
  have hkeyed := h.sound.queue.statesKeyed
  have hw : World.Runs (fun _ _ => True) (w.standing w.queue.states .capping) es := by
    rwa [World.standing, ← hside]
  have hnext : Sidecar.capping.next { w.queue with states := w.queue.states }
      (.readDir (w.queue.states.map Prod.fst) now) =
      some (.listing (.cap now) (w.queue.states.map Prod.fst) [], none) := by
    rw [Sidecar.next, Sidecar.next.readDir, if_pos]
    exact ⟨hkeyed, fun _ hin => hin⟩
  have hlisted := (hw.silent hnext).lists
  rwa [List.nil_append, flatMap_get hkeyed] at hlisted

/-- Whatever the filesystem refuses, `enforce_cap` evicts only chapters that have aired, the one
that aired first in front, each while its own total is over the cap; no other file goes, and no stem
a chapter left refers to. It stops under the cap, or with nothing left to evict but what the
filesystem kept. What it does to the state files is a run of the sidecar's steps. -/
theorem enforceCap_sweeps (h : World.Runs (fun _ _ => True) w es) (hside : w.sidecar = .capping)
    (faults : ℕ → Faults) (disk : Disk) (capBytes : ℕ) (now : ℤ) :
    (∃ seen gone, Swept faults w.queue disk (inOrder (w.queue.states.map Prod.snd)) seen gone
        (enforceCap faults w.queue disk capBytes now) ∧
      seen <+: candidates (inOrder (w.queue.states.map Prod.snd)) now ∧
      (∀ j ∈ gone, j.status = .done ∧ hasAired j now) ∧
      (gone.Pairwise fun a b => a.airAt.getD 0 ≤ b.airAt.getD 0) ∧
      (if (opening w.queue disk).total ≤ capBytes then
          seen = [] ∧ enforceCap faults w.queue disk capBytes now = opening w.queue disk
        else Needed faults capBytes 1 seen ((opening w.queue disk).removeOrphans (faults 0))
          (enforceCap faults w.queue disk capBytes now)) ∧
      ((enforceCap faults w.queue disk capBytes now).total ≤ capBytes ∨
        seen = candidates (inOrder (w.queue.states.map Prod.snd)) now ∧
          Clean faults (enforceCap faults w.queue disk capBytes now))) ∧
    World.Runs (fun _ _ => True)
      (w.standing (enforceCap faults w.queue disk capBytes now).states .idle) es := by
  have hq := h.sound.queue
  set jobs := inOrder (w.queue.states.map Prod.snd) with hjobs
  obtain ⟨haired, hordered⟩ := candidates_spec jobs now
  have hinit : Swept faults w.queue disk jobs [] [] (opening w.queue disk) :=
    swept_init hq faults disk jobs
  have hcap : enforceCap faults w.queue disk capBytes now =
      if (opening w.queue disk).total ≤ capBytes then opening w.queue disk
      else Sweep.evictAll faults capBytes 1 (candidates jobs now)
        (Sweep.removeOrphans (faults 0) (opening w.queue disk)) := rfl
  rw [hcap]
  constructor
  · split_ifs with hunder
    · exact ⟨[], [], hinit, List.nil_prefix, by simp, List.Pairwise.nil, ⟨rfl, rfl⟩,
        Or.inl hunder⟩
    · obtain ⟨hswept, hclean⟩ := hinit.removeOrphans 0
      have hids := ids_nodup hq
      have hnodup : (candidates jobs now).Nodup :=
        (List.perm_insertionSort _ _).nodup_iff.mpr ((List.Nodup.of_map _ hids).filter _)
      obtain ⟨seen, gone, hall, hbegins, hneeded, hend⟩ := hswept.evictAll hclean hids hnodup
        (fun j hj => ⟨(mem_candidates hj).1, (mem_candidates hj).2, List.not_mem_nil⟩) 1
      rw [List.nil_append] at hall
      have hsub := hall.turns.trans hbegins.sublist
      exact ⟨seen, gone, hall, hbegins, fun j hj => haired j (hsub.subset hj),
        hordered.sublist hsub, hneeded, hend⟩
  · have hlisted := h.listsCap hside now
    split_ifs with hunder
    · exact hlisted.rests
    · refine World.Runs.evicts 1 ?_
      rw [removeOrphans_states]
      exact hlisted

/-- The sidecar has rendered a chapter and is about to look at the cap. -/
def renderedOnce : List Act := airedThenRendered.take (airedThenRendered.length - 4)

def isCapping : Sidecar → Bool
  | .capping => true
  | _ => false

def oneChapter : Disk := ⟨fun path => if path = "/cache/chapters/c.mp4" then some 70 else none,
  ["film/intro", "film/outro"], fun _ => 20, by decide⟩

def YEAR : ℤ := 365 * 86400 * SECOND

theorem enforceCap_sweeps_once : ∃ (w : World) (es : List Event) (seen gone : List JobState),
    World.Runs (fun _ _ => True)
      (w.standing (enforceCap (fun _ => {}) w.queue oneChapter 50 YEAR).states .idle) es ∧
    Swept (fun _ => {}) w.queue oneChapter (inOrder (w.queue.states.map Prod.snd)) seen gone
      (enforceCap (fun _ => {}) w.queue oneChapter 50 YEAR) ∧
    (enforceCap (fun _ => {}) w.queue oneChapter 50 YEAR).evicted = ["c0ffee"] := by
  have hfollow : (Lib.follow World.step (fun _ _ => True) ({}, []) renderedOnce).any (fun r =>
      isCapping r.1.sidecar ∧
        (enforceCap (fun _ => {}) r.1.queue oneChapter 50 YEAR).evicted = ["c0ffee"]) := by
    decide +kernel
  obtain ⟨r, hr, hsaid⟩ := (Option.any_eq_true _ _).mp hfollow
  obtain ⟨hcapping, hevicted⟩ := of_decide_eq_true hsaid
  have hruns : World.Runs (fun _ _ => True) r.1 r.2 := Lib.Traced.init.follow hr
  have hside : r.1.sidecar = .capping := by
    cases hs : r.1.sidecar <;> rw [hs] at hcapping <;> first | rfl | cases hcapping
  obtain ⟨⟨seen, gone, hswept, -⟩, hruns'⟩ :=
    enforceCap_sweeps hruns hside (fun _ => {}) oneChapter 50 YEAR
  exact ⟨r.1, r.2, seen, gone, hruns', hswept, hevicted⟩

end Cap

end EtvStation.Render
