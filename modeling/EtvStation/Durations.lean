import EtvStation.Generation
import EtvStation.Pattern.Catalog

/-! Where a generation's items get their lengths: the config, the cache of probed files, a fresh
probe, or the catalog for an error card. Lengths are nanoseconds. -/
namespace EtvStation

inductive SourceConfig where
  | local_ (path : String)
  | lavfi (params : String)
  | http (uri : String)
  deriving DecidableEq, Repr

/-- An item whose length is not known yet. The resolver reads a catalog runtime of zero as none. -/
structure UnprobedItem (β : Type) where
  id : String
  block : ℕ := 0
  source : SourceConfig
  inPoint : Option ℕ := none
  outPoint : Option ℕ := none
  catalogDuration : Option ℕ := none
  errorCard : Bool := false
  rest : β
  catalog_pos : ∀ slot, catalogDuration = some slot → 0 < slot := by simp

/-- A catalog row's runtime, as an item carries it. -/
def catalogRuntime (durationMs : Option ℤ) : Option ℕ :=
  (durationMs.filter fun ms => 0 < ms ∧ ms ≤ MAX_CATALOG_DURATION_MS).map fun ms =>
    ms.toNat * 1000000

inductive StreamKind where
  | audio
  | video
  | subtitle
  | other
  deriving DecidableEq, Repr

/-- Why a probed file cannot air. -/
inductive Unairable where
  | noVideo
  | zeroLength
  | offRuntime (probed catalog : ℕ)
  deriving DecidableEq, Repr

inductive StationError where
  | missingLocalFile (id path reason : String)
  /-- ffprobe's own failure, or the verdict on what it answered. -/
  | ffprobe (path : String) (reason : String ⊕ Unairable)
  | ffprobeUnavailable (reason : String)
  | missingField (id field : String)
  deriving DecidableEq, Repr

/-- The file and the reason, of an error that is about one file. -/
def StationError.unreadableMedia : StationError → Option (String × (String ⊕ Unairable))
  | .ffprobe path reason => some (path, reason)
  | .missingLocalFile _ path reason => some (path, .inl reason)
  | _ => none

structure CacheEntry where
  mtimeSecs : ℤ
  sizeBytes : ℕ
  duration : ℕ
  streams : Option (List StreamKind)
  deriving DecidableEq, Repr

structure DurationCache where
  entries : HashMap String CacheEntry := ∅
  dirty : Bool := false

structure ProbeStats where
  fromCache : ℕ := 0
  fromProbe : ℕ := 0
  fromConfig : ℕ := 0
  errorCards : ℕ := 0
  dropped : List ℕ := []
  deriving DecidableEq, Repr

/-- What looking at a file says: its mtime and size, and what ffprobe makes of it when run. -/
structure FileAnswer where
  metadata : Except String (ℤ × ℕ)
  ffprobe : Except StationError (ℕ × List StreamKind)

variable {β : Type}

def configDuration (item : UnprobedItem β) : Except StationError ℕ :=
  match item.outPoint with
  | none => .error (.missingField item.id "out_point")
  | some out =>
    if out ≤ item.inPoint.getD 0 then .error (.missingField item.id "out_point > in_point")
    else .ok (out - item.inPoint.getD 0)

def PROBE_DEVIATION_FACTOR : ℕ := 2

def unairableReason (probed : ℕ) (streams : List StreamKind) (catalog : Option ℕ) :
    Option Unairable :=
  if ¬ streams.any (· = .video) then some .noVideo
  else if probed = 0 then some .zeroLength
  else
    (catalog.filter fun c =>
      probed > c * PROBE_DEVIATION_FACTOR ∨ probed * PROBE_DEVIATION_FACTOR < c).map fun c =>
        .offRuntime probed c

def checkProbe (path : String) (probed : ℕ) (streams : List StreamKind)
    (item : UnprobedItem β) : Except StationError ℕ :=
  match unairableReason probed streams (item.catalogDuration.filter fun c => c ≠ 0) with
  | none => .ok probed
  | some reason => .error (.ffprobe path (.inr reason))

/-- Cut a probed length to the item's in and out points. -/
def clampToConfig (probed : ℕ) (item : UnprobedItem β) : ℕ :=
  let inPoint := item.inPoint.getD 0
  let bounded := min (item.outPoint.getD probed) probed
  if bounded ≤ inPoint then 0 else bounded - inPoint

/-- The entry trusted for a file of that mtime and size. -/
def DurationCache.trusted (cache : DurationCache) (path : String) (mtimeSecs : ℤ)
    (sizeBytes : ℕ) : Option (ℕ × List StreamKind) := do
  let entry ← cache.entries.lookup path
  let streams ← entry.streams
  if entry.mtimeSecs = mtimeSecs ∧ entry.sizeBytes = sizeBytes then some (entry.duration, streams)
  else none

def durationFor (item : UnprobedItem β) (answer : FileAnswer) (cache : DurationCache)
    (stats : ProbeStats) : Except StationError ℕ × DurationCache × ProbeStats :=
  match item.source with
  | .lavfi _ | .http _ =>
    (configDuration item, cache, { stats with fromConfig := stats.fromConfig + 1 })
  | .local_ path =>
    match answer.metadata with
    | .error reason => (.error (.missingLocalFile item.id path reason), cache, stats)
    | .ok (mtimeSecs, sizeBytes) =>
      match cache.trusted path mtimeSecs sizeBytes with
      | some (probed, streams) =>
        match checkProbe path probed streams item with
        | .error err => (.error err, cache, stats)
        | .ok probed =>
          (.ok (clampToConfig probed item), cache, { stats with fromCache := stats.fromCache + 1 })
      | none =>
        match answer.ffprobe with
        | .error err => (.error err, cache, stats)
        | .ok (probed, streams) =>
          -- the raw probe is cached whatever the verdict on it
          ((checkProbe path probed streams item).map fun probed => clampToConfig probed item,
            { entries := cache.entries.insert path ⟨mtimeSecs, sizeBytes, probed, some streams⟩
              dirty := true },
            { stats with fromProbe := stats.fromProbe + 1 })

section Resolve

-- the screen of an error card: its item, the file and the reason
variable (card : UnprobedItem β → String → String ⊕ Unairable → String)

def makeErrorCard (item : UnprobedItem β) (path : String) (reason : String ⊕ Unairable)
    (slot : ℕ) : UnprobedItem β :=
  { item with
    source := .lavfi (card item path reason)
    inPoint := some 0
    outPoint := some slot
    errorCard := true }

/-- One item of the list: itself and its length, an error card, or nothing. -/
def look (index : ℕ) (item : UnprobedItem β) (answer : FileAnswer)
    (cache : DurationCache) (stats : ProbeStats) :
    Except StationError (Option (UnprobedItem β × ℕ) × DurationCache × ProbeStats) :=
  match durationFor item answer cache stats with
  | (.ok d, cache, stats) => .ok (some (item, d), cache, stats)
  | (.error err, cache, stats) =>
    match err.unreadableMedia with
    | none => .error err
    | some (path, reason) =>
      match item.catalogDuration with
      | some slot =>
        .ok (some (makeErrorCard card item path reason slot, slot), cache,
          { stats with errorCards := stats.errorCards + 1 })
      | none => .ok (none, cache, { stats with dropped := stats.dropped ++ [index] })

def lookAll : ℕ → List (UnprobedItem β × FileAnswer) → DurationCache → ProbeStats →
    Except StationError (List (UnprobedItem β × ℕ) × DurationCache × ProbeStats)
  | _, [], cache, stats => .ok ([], cache, stats)
  | index, (item, answer) :: rest, cache, stats => do
    let (kept, cache, stats) ← look card index item answer cache stats
    let (others, cache, stats) ← lookAll (index + 1) rest cache stats
    return (kept.toList ++ others, cache, stats)

end Resolve

/-- A list of extra items: those that cannot be read are left out. -/
def lookExtra : List (UnprobedItem β × FileAnswer) → DurationCache → ProbeStats →
    Except StationError (List (UnprobedItem β × ℕ) × DurationCache × ProbeStats)
  | [], cache, stats => .ok ([], cache, stats)
  | (item, answer) :: rest, cache, stats =>
    match durationFor item answer cache stats with
    | (.ok d, cache, stats) => do
      let (others, cache, stats) ← lookExtra rest cache stats
      return ((item, d) :: others, cache, stats)
    | (.error err, cache, stats) =>
      if err.unreadableMedia.isNone then .error err else lookExtra rest cache stats

def lookExtras : List (List (UnprobedItem β × FileAnswer)) → DurationCache → ProbeStats →
    Except StationError (List (List (UnprobedItem β × ℕ)) × DurationCache × ProbeStats)
  | [], cache, stats => .ok ([], cache, stats)
  | list :: rest, cache, stats => do
    let (resolved, cache, stats) ← lookExtra list cache stats
    let (others, cache, stats) ← lookExtras rest cache stats
    return (resolved :: others, cache, stats)

def DurationCache.pruneToPaths (cache : DurationCache) (paths : List String) : DurationCache :=
  let kept := cache.entries.entries.filter fun e => e.1 ∈ paths
  { entries := ⟨kept, (cache.entries.nodupKeys.sublist List.filter_sublist)⟩
    dirty := cache.dirty || kept.length != cache.entries.entries.length }

def UnprobedItem.localPath (item : UnprobedItem β) : Option String :=
  match item.source with
  | .local_ path => some path
  | _ => none

/-- The kept items, their lengths, the counts and the extra lists, with what is left cached. -/
def resolveAllWith (card : UnprobedItem β → String → String ⊕ Unairable → String)
    (items : List (UnprobedItem β × FileAnswer)) (extra : List (List (UnprobedItem β × FileAnswer)))
    (cache : DurationCache) :
    Except StationError (List (UnprobedItem β) × List ℕ × ProbeStats ×
      List (List (UnprobedItem β × ℕ)) × DurationCache) := do
  let requested := (items ++ extra.flatten).filterMap fun e => e.1.localPath
  let (kept, cache, stats) ← lookAll card 0 items cache {}
  let (extras, cache, stats) ← lookExtras extra cache stats
  return (kept.map Prod.fst, kept.map Prod.snd, stats, extras, cache.pruneToPaths requested)

/-- The length an item's file is found to have, cached or probed, when it is one that can air. -/
def fileLength (cache : DurationCache) (item : UnprobedItem β) (answer : FileAnswer) : Option ℕ :=
  match item.source with
  | .local_ path =>
    match answer.metadata with
    | .error _ => none
    | .ok (mtimeSecs, sizeBytes) => do
      let (probed, streams) ← (cache.trusted path mtimeSecs sizeBytes).or answer.ffprobe.toOption
      (checkProbe path probed streams item).toOption
  | _ => none

def cacheAfter (cache : DurationCache) (e : UnprobedItem β × FileAnswer) : DurationCache :=
  (durationFor e.1 e.2 cache {}).2.1

/-- Each item of a list with the length its file is found to have as the list is gone through. -/
def media (cache : DurationCache) : List (UnprobedItem β × FileAnswer) →
    List (UnprobedItem β × Option ℕ)
  | [] => []
  | e :: rest => (e.1, fileLength cache e.1 e.2) :: media (cacheAfter cache e) rest

def mediaLists (cache : DurationCache) : List (List (UnprobedItem β × FileAnswer)) →
    List (List (UnprobedItem β × Option ℕ))
  | [] => []
  | list :: rest => media cache list :: mediaLists (list.foldl cacheAfter cache) rest

/-- Where an item's media ends: the file, or the out point that is all there is to say of the
others. -/
def UnprobedItem.mediaEnd (item : UnprobedItem β) (length : Option ℕ) : ℕ :=
  match item.source with
  | .local_ _ => length.getD 0
  | _ => item.outPoint.getD 0

/-- An item has airtime, and no more than its media has after the in point. -/
def Airtime (length : Option ℕ) (kept : UnprobedItem β × ℕ) : Prop :=
  0 < kept.2 ∧ kept.1.inPoint.getD 0 + kept.2 ≤ kept.1.mediaEnd length

/-- The in point comes before the end of the file, and before the out point. -/
def Fits (e : UnprobedItem β × Option ℕ) : Prop :=
  ∀ length, e.2 = some length →
    e.1.inPoint.getD 0 < min (e.1.outPoint.getD length) length

/-- How an item ends up in the list, with which length. -/
inductive KeptAs (card : UnprobedItem β → String → String ⊕ Unairable → String)
    (e : UnprobedItem β × Option ℕ) : UnprobedItem β × ℕ → Prop
  | config {out : ℕ} (hlocal : e.1.localPath = none) (hlength : e.2 = none)
    (hout : e.1.outPoint = some out) (hlt : e.1.inPoint.getD 0 < out) :
    KeptAs card e (e.1, out - e.1.inPoint.getD 0)
  | file {length : ℕ} (hlocal : e.1.localPath.isSome) (hlength : e.2 = some length) :
    KeptAs card e (e.1, clampToConfig length e.1)
  | card {path : String} {reason : String ⊕ Unairable} {slot : ℕ} (hlength : e.2 = none)
    (hslot : e.1.catalogDuration = some slot) :
    KeptAs card e (makeErrorCard card e.1 path reason slot, slot)

theorem KeptAs.airtime_iff {card : UnprobedItem β → String → String ⊕ Unairable → String}
    {e : UnprobedItem β × Option ℕ} {kept : UnprobedItem β × ℕ} (h : KeptAs card e kept) :
    Airtime e.2 kept ↔ Fits e := by
  cases h with
  | @config out hlocal hlength hout hlt =>
    have hend : e.1.mediaEnd none = out := by
      unfold UnprobedItem.localPath at hlocal
      unfold UnprobedItem.mediaEnd
      split at hlocal
      · cases hlocal
      · rw [hout]
        rfl
    simp only [Airtime, Fits, hlength, hend]
    constructor
    · intro _ length hnone
      cases hnone
    · intro _
      omega
  | @file length hlocal hlength =>
    have hend : e.1.mediaEnd (some length) = length := by
      unfold UnprobedItem.localPath at hlocal
      unfold UnprobedItem.mediaEnd
      split at hlocal
      · rfl
      · cases hlocal
    simp only [Airtime, Fits, hlength, hend, clampToConfig, Option.some.injEq, forall_eq']
    split_ifs with hle <;> omega
  | @card path reason slot hlength hslot =>
    have hpos := e.1.catalog_pos slot hslot
    simp only [Airtime, Fits, hlength, makeErrorCard, UnprobedItem.mediaEnd, Option.getD_some]
    constructor
    · intro _ length hnone
      cases hnone
    · intro _
      omega

/-- What is looked at does not depend on the counts. -/
theorem durationFor_cache (item : UnprobedItem β) (answer : FileAnswer) (cache : DurationCache)
    (stats : ProbeStats) :
    (durationFor item answer cache stats).2.1 = cacheAfter cache (item, answer) := by
  simp only [cacheAfter, durationFor]
  repeat' split
  all_goals rfl

theorem durationFor_dropped (item : UnprobedItem β) (answer : FileAnswer) (cache : DurationCache)
    (stats : ProbeStats) : (durationFor item answer cache stats).2.2.dropped = stats.dropped := by
  unfold durationFor
  repeat' split
  all_goals rfl

theorem configDuration_ok {item : UnprobedItem β} {d : ℕ} (h : configDuration item = .ok d) :
    ∃ out, item.outPoint = some out ∧ item.inPoint.getD 0 < out ∧
      d = out - item.inPoint.getD 0 := by
  unfold configDuration at h
  split at h
  · cases h
  · next out hout =>
    split_ifs at h with hle
    exact ⟨out, hout, not_le.mp hle, (Except.ok.inj h).symm⟩

theorem configDuration_error {item : UnprobedItem β} {err : StationError}
    (h : configDuration item = .error err) : err.unreadableMedia = none := by
  unfold configDuration at h
  split at h
  · cases h
    rfl
  · split_ifs at h
    cases h
    rfl

theorem durationFor_config {item : UnprobedItem β} (hlocal : item.localPath = none)
    (answer : FileAnswer) (cache : DurationCache) (stats : ProbeStats) :
    (durationFor item answer cache stats).1 = configDuration item ∧
      fileLength cache item answer = none := by
  cases hsource : item.source with
  | local_ path => simp [UnprobedItem.localPath, hsource] at hlocal
  | lavfi params => simp only [durationFor, fileLength, hsource, and_self]
  | http uri => simp only [durationFor, fileLength, hsource, and_self]

/-- A local item is timed by its file, cut to its points. -/
theorem durationFor_local {item : UnprobedItem β} (hlocal : item.localPath.isSome)
    (answer : FileAnswer) (cache : DurationCache) (stats : ProbeStats) :
    (durationFor item answer cache stats).1.toOption =
      (fileLength cache item answer).map fun length => clampToConfig length item := by
  cases hsource : item.source with
  | lavfi params => simp [UnprobedItem.localPath, hsource] at hlocal
  | http uri => simp [UnprobedItem.localPath, hsource] at hlocal
  | local_ path =>
    simp only [durationFor, fileLength, hsource]
    cases answer.metadata with
    | error reason => rfl
    | ok found =>
      obtain ⟨mtimeSecs, sizeBytes⟩ := found
      cases htrusted : cache.trusted path mtimeSecs sizeBytes with
      | some entry =>
        obtain ⟨probed, streams⟩ := entry
        cases hcheck : checkProbe path probed streams item <;>
          simp [htrusted, hcheck, Except.toOption]
      | none =>
        cases hprobe : answer.ffprobe with
        | error err => simp [htrusted, Except.toOption]
        | ok probe =>
          obtain ⟨probed, streams⟩ := probe
          cases hcheck : checkProbe path probed streams item <;>
            simp [htrusted, hcheck, Except.toOption, Except.map]

/-- An item that has no file to fail, or whose file can air. -/
def readable (e : UnprobedItem β × Option ℕ) : Bool := e.1.localPath.isNone || e.2.isSome

theorem durationFor_ok (card : UnprobedItem β → String → String ⊕ Unairable → String)
    {item : UnprobedItem β} {answer : FileAnswer} {cache : DurationCache} {stats : ProbeStats}
    {d : ℕ} (h : (durationFor item answer cache stats).1 = .ok d) :
    readable (item, fileLength cache item answer) ∧
      KeptAs card (item, fileLength cache item answer) (item, d) := by
  cases hlocal : item.localPath with
  | none =>
    obtain ⟨hconfig, hnone⟩ := durationFor_config hlocal answer cache stats
    obtain ⟨out, hout, hlt, rfl⟩ := configDuration_ok (hconfig.symm.trans h)
    exact ⟨by simp [readable, hlocal], .config hlocal hnone hout hlt⟩
  | some path =>
    have htimed := durationFor_local (Option.isSome_of_eq_some hlocal) answer cache stats
    rw [h] at htimed
    obtain ⟨length, hlength, rfl⟩ := Option.map_eq_some_iff.mp htimed.symm
    exact ⟨by simp [readable, hlength], .file (Option.isSome_of_eq_some hlocal) hlength⟩

theorem durationFor_error {item : UnprobedItem β} {answer : FileAnswer} {cache : DurationCache}
    {stats : ProbeStats} {err : StationError}
    (h : (durationFor item answer cache stats).1 = .error err) :
    fileLength cache item answer = none ∧
      (err.unreadableMedia ≠ none → ¬ readable (item, fileLength cache item answer)) := by
  cases hlocal : item.localPath with
  | none =>
    obtain ⟨hconfig, hnone⟩ := durationFor_config hlocal answer cache stats
    exact ⟨hnone, fun hmedia => absurd (configDuration_error (hconfig.symm.trans h)) hmedia⟩
  | some path =>
    have htimed := durationFor_local (Option.isSome_of_eq_some hlocal) answer cache stats
    rw [h] at htimed
    have hnone := Option.map_eq_none_iff.mp htimed.symm
    exact ⟨hnone, fun _ => by simp [readable, hlocal, hnone]⟩

/-- What an item becomes: itself or its card with a length, or nothing. -/
theorem look_ok {card : UnprobedItem β → String → String ⊕ Unairable → String} {index : ℕ}
    {item : UnprobedItem β} {answer : FileAnswer} {cache cache' : DurationCache}
    {stats stats' : ProbeStats} {kept : Option (UnprobedItem β × ℕ)}
    (h : look card index item answer cache stats = .ok (kept, cache', stats')) :
    cache' = cacheAfter cache (item, answer) ∧
      ((∃ k, kept = some k ∧ KeptAs card (item, fileLength cache item answer) k ∧
          stats'.dropped = stats.dropped) ∨
        (kept = none ∧ fileLength cache item answer = none ∧
          stats'.dropped = stats.dropped ++ [index])) := by
  have hcache := durationFor_cache item answer cache stats
  have hdropped := durationFor_dropped item answer cache stats
  have hkept := fun d => @durationFor_ok _ card item answer cache stats d
  have herror := fun err => @durationFor_error _ item answer cache stats err
  unfold look at h
  rcases hfor : durationFor item answer cache stats with ⟨result, after, counted⟩
  rw [hfor] at hcache hdropped hkept herror h
  cases result with
  | ok d =>
    cases h
    exact ⟨hcache, Or.inl ⟨(item, d), rfl, (hkept d rfl).2, hdropped⟩⟩
  | error err =>
    cases hmedia : err.unreadableMedia with
    | none =>
      simp only [hmedia] at h
      cases h
    | some found =>
      obtain ⟨path, reason⟩ := found
      cases hslot : item.catalogDuration with
      | some slot =>
        simp only [hmedia, hslot, Except.ok.injEq, Prod.mk.injEq] at h
        obtain ⟨rfl, rfl, rfl⟩ := h
        exact ⟨hcache, Or.inl ⟨_, rfl, .card (herror err rfl).1 hslot, hdropped⟩⟩
      | none =>
        simp only [hmedia, hslot, Except.ok.injEq, Prod.mk.injEq] at h
        obtain ⟨rfl, rfl, rfl⟩ := h
        exact ⟨hcache, Or.inr ⟨rfl, (herror err rfl).1, by rw [← hdropped]⟩⟩

/-- What is left of a list numbered from `index` without the numbers in `dropped`. -/
def undropped {α : Type} (index : ℕ) (dropped : List ℕ) (l : List α) : List α :=
  ((l.zipIdx index).filter fun e => e.2 ∉ dropped).map Prod.fst

theorem undropped_cons {α : Type} {index : ℕ} {dropped : List ℕ} (a : α) (l : List α) :
    undropped index dropped (a :: l) =
      (if index ∈ dropped then [] else [a]) ++ undropped (index + 1) dropped l := by
  simp only [undropped, List.zipIdx_cons, List.filter_cons]
  split_ifs with hin <;> simp_all

theorem undropped_cons_of_lt {α : Type} {index first : ℕ} {dropped : List ℕ} (l : List α)
    (h : first < index) : undropped index (first :: dropped) l = undropped index dropped l := by
  induction l generalizing index with
  | nil => rfl
  | cons a l ih =>
    have hne : index ≠ first := by omega
    simp only [undropped_cons, List.mem_cons, hne, false_or, ih (by omega : first < index + 1)]

theorem lookAll_ok {card : UnprobedItem β → String → String ⊕ Unairable → String} {index : ℕ}
    {items : List (UnprobedItem β × FileAnswer)} {cache cache' : DurationCache}
    {stats stats' : ProbeStats} {kept : List (UnprobedItem β × ℕ)}
    (h : lookAll card index items cache stats = .ok (kept, cache', stats')) :
    cache' = items.foldl cacheAfter cache ∧
      ∃ dropped, stats'.dropped = stats.dropped ++ dropped ∧ dropped.Pairwise (· < ·) ∧
        (∀ i ∈ dropped, index ≤ i ∧ i < index + items.length) ∧
        List.Forall₂ (KeptAs card) (undropped index dropped (media cache items)) kept ∧
        ∀ e ∈ media cache items, e.2.isSome → e ∈ undropped index dropped (media cache items) := by
  induction items generalizing index cache stats kept with
  | nil =>
    obtain ⟨rfl, hrest⟩ := Prod.mk.inj (Except.ok.inj h)
    obtain ⟨rfl, rfl⟩ := Prod.mk.inj hrest
    exact ⟨rfl, [], (List.append_nil _).symm, .nil, fun i hi => absurd hi List.not_mem_nil, .nil,
      fun e he => absurd he List.not_mem_nil⟩
  | cons e items ih =>
    obtain ⟨item, answer⟩ := e
    obtain ⟨⟨first, cache₁, stats₁⟩, hfirst, hrest⟩ := Lib.bind_eq_ok.mp h
    obtain ⟨⟨others, cache₂, stats₂⟩, hothers, hok⟩ := Lib.bind_eq_ok.mp hrest
    cases hok
    obtain ⟨hafter, hkept⟩ := look_ok hfirst
    obtain ⟨hcache, dropped, hdropped, hsorted, hin, hrel, hread⟩ := ih hothers
    rw [hafter] at hcache hrel hread
    refine ⟨hcache, ?_⟩
    rcases hkept with ⟨k, rfl, hk, hsame⟩ | ⟨rfl, hnone, hmore⟩
    · have hnot : index ∉ dropped := fun hi => absurd (hin index hi).1 (by omega)
      refine ⟨dropped, by rw [hdropped, hsame], hsorted, fun i hi => ?_, ?_, ?_⟩
      · have := hin i hi
        simp only [List.length_cons]
        omega
      · rw [media, undropped_cons, if_neg hnot]
        exact .cons hk hrel
      · rw [media, undropped_cons, if_neg hnot]
        intro e he hsome
        rcases List.mem_cons.mp he with rfl | he
        · exact List.mem_append_left _ List.mem_cons_self
        · exact List.mem_append_right _ (hread e he hsome)
    · refine ⟨index :: dropped, by rw [hdropped, hmore, List.append_assoc]; rfl,
        List.pairwise_cons.mpr ⟨fun i hi => ?_, hsorted⟩, fun i hi => ?_, ?_, ?_⟩
      · have := (hin i hi).1
        omega
      · simp only [List.length_cons]
        rcases List.mem_cons.mp hi with rfl | hi
        · omega
        · have := hin i hi
          omega
      · rw [media, undropped_cons, if_pos List.mem_cons_self,
          undropped_cons_of_lt _ (Nat.lt_succ_self index)]
        exact hrel
      · rw [media, undropped_cons, if_pos List.mem_cons_self,
          undropped_cons_of_lt _ (Nat.lt_succ_self index)]
        intro e he hsome
        rcases List.mem_cons.mp he with rfl | he
        · rw [hnone] at hsome
          cases hsome
        · exact hread e he hsome

theorem lookExtra_ok (card : UnprobedItem β → String → String ⊕ Unairable → String)
    {list : List (UnprobedItem β × FileAnswer)} {cache cache' : DurationCache}
    {stats stats' : ProbeStats} {resolved : List (UnprobedItem β × ℕ)}
    (h : lookExtra list cache stats = .ok (resolved, cache', stats')) :
    cache' = list.foldl cacheAfter cache ∧ stats'.dropped = stats.dropped ∧
      List.Forall₂ (fun e k => k.1 = e.1 ∧ KeptAs card e k)
        ((media cache list).filter readable) resolved := by
  induction list generalizing cache stats resolved with
  | nil =>
    cases h
    exact ⟨rfl, rfl, .nil⟩
  | cons e list ih =>
    obtain ⟨item, answer⟩ := e
    have hafter := durationFor_cache item answer cache stats
    have hdropped := durationFor_dropped item answer cache stats
    have hkept := fun d => @durationFor_ok _ card item answer cache stats d
    have herror := fun err => @durationFor_error _ item answer cache stats err
    rw [lookExtra] at h
    rcases hfor : durationFor item answer cache stats with ⟨result, after, counted⟩
    rw [hfor] at hafter hdropped hkept herror h
    dsimp only at hafter hdropped
    rw [media]
    cases result with
    | ok d =>
      obtain ⟨⟨others, cache₂, stats₂⟩, hothers, hok⟩ := Lib.bind_eq_ok.mp h
      cases hok
      obtain ⟨hcache, hsame, hrel⟩ := ih hothers
      rw [hafter] at hcache hrel
      obtain ⟨hreadable, hk⟩ := hkept d rfl
      refine ⟨hcache, hsame.trans hdropped, ?_⟩
      rw [List.filter_cons_of_pos hreadable]
      exact .cons ⟨rfl, hk⟩ hrel
    | error err =>
      by_cases hmedia : err.unreadableMedia.isNone
      · simp only [hmedia, if_true] at h
        cases h
      · simp only [hmedia] at h
        obtain ⟨hcache, hsame, hrel⟩ := ih h
        rw [hafter] at hcache hrel
        refine ⟨hcache, hsame.trans hdropped, ?_⟩
        rw [List.filter_cons_of_neg]
        · exact hrel
        · exact (herror err rfl).2 fun hnone => hmedia (by rw [hnone]; rfl)

theorem lookExtras_ok (card : UnprobedItem β → String → String ⊕ Unairable → String)
    {extra : List (List (UnprobedItem β × FileAnswer))} {cache cache' : DurationCache}
    {stats stats' : ProbeStats} {extras : List (List (UnprobedItem β × ℕ))}
    (h : lookExtras extra cache stats = .ok (extras, cache', stats')) :
    stats'.dropped = stats.dropped ∧
      List.Forall₂ (fun found resolved => List.Forall₂ (fun e k => k.1 = e.1 ∧ KeptAs card e k)
        (found.filter readable) resolved) (mediaLists cache extra) extras := by
  induction extra generalizing cache stats extras with
  | nil =>
    cases h
    exact ⟨rfl, .nil⟩
  | cons list extra ih =>
    obtain ⟨⟨resolved, cache₁, stats₁⟩, hlist, hrest⟩ := Lib.bind_eq_ok.mp h
    obtain ⟨⟨others, cache₂, stats₂⟩, hothers, hok⟩ := Lib.bind_eq_ok.mp hrest
    cases hok
    obtain ⟨hafter, hsame, hrel⟩ := lookExtra_ok card hlist
    obtain ⟨hsame', hrels⟩ := ih hothers
    rw [hafter] at hrels
    exact ⟨hsame'.trans hsame, .cons hrel hrels⟩

theorem airtime_iff_fits {card : UnprobedItem β → String → String ⊕ Unairable → String}
    {found : List (UnprobedItem β × Option ℕ)} {kept : List (UnprobedItem β × ℕ)}
    (h : List.Forall₂ (KeptAs card) found kept) :
    List.Forall₂ (fun e k => Airtime e.2 k) found kept ↔ ∀ e ∈ found, Fits e := by
  induction h with
  | nil => simp
  | cons hk _ ih => simp only [List.forall₂_cons, ih, hk.airtime_iff, List.forall_mem_cons]

def SourceConfig.toPlayoutSource (source : SourceConfig) (inPoint outPoint : Option ℕ) :
    PlayoutItemSource :=
  match source with
  | .local_ path => .local_ path (inPoint.map (· / 1000000)) (outPoint.map (· / 1000000))
  | .lavfi params => .lavfi params
  | .http uri => .http uri

def UnprobedItem.toResolved (item : UnprobedItem β) : ResolvedItem β where
  id := item.id
  block := item.block
  source := item.source.toPlayoutSource item.inPoint item.outPoint
  errorCard := item.errorCard
  rest := item.rest

/-- The items a generation lays, end to end. -/
def sequence (kept : List (UnprobedItem β)) (durations : List ℕ) : Sequential β :=
  (kept.map UnprobedItem.toResolved).zip durations

theorem itemSpans_increasing (start : ℤ) {rule : Sequential β} (h : ∀ e ∈ rule, 0 < e.2) :
    (rule.itemSpans start).Pairwise fun a b => a.2.1 < b.2.1 := by
  refine (Sequential.itemSpans_pairwise start rule).imp_of_mem fun {a b} ha _ hab => ?_
  obtain ⟨-, -, -, dur, hmem, hfinish⟩ := Sequential.mem_itemSpans ha
  have hpos := h _ hmem
  dsimp only at hpos
  omega

/-- A row of the ledger and the airing it stands for. -/
def Records (rule : Sequential β) (from_ : ℤ) (r : PlayRecord) : Prop :=
  ∃ e ∈ rule.itemSpans from_, e.1.bumper = none ∧ e.1.id = r.entryId ∧ e.2.1 = r.start ∧
    e.2.1 < e.2.2

theorem playRecords_records (showIds : String → Option String) (from_ : ℤ) {rule : Sequential β}
    (h : ∀ e ∈ rule.filter fun e => e.1.bumper.isNone, 0 < e.2) :
    (∀ r ∈ playRecords showIds from_ rule, Records rule from_ r) ∧
      (playRecords showIds from_ rule).Pairwise fun a b => a.start < b.start := by
  have hairs : ∀ e ∈ rule.itemSpans from_, e.1.bumper = none → e.2.1 < e.2.2 := by
    intro e he hnone
    obtain ⟨-, -, -, dur, hmem, hfinish⟩ := Sequential.mem_itemSpans he
    have hpos := h (e.1, dur) (List.mem_filter.mpr ⟨hmem, by rw [hnone]; rfl⟩)
    dsimp only at hpos
    omega
  constructor
  · intro r hr
    obtain ⟨e, he, hrow⟩ := List.mem_filterMap.mp hr
    split_ifs at hrow with hbumper
    have hnone := Option.not_isSome_iff_eq_none.mp hbumper
    cases hrow
    exact ⟨e, he, hnone, rfl, rfl, hairs e he hnone⟩
  · refine List.pairwise_filterMap.mpr ((Sequential.itemSpans_pairwise from_ rule).imp_of_mem ?_)
    intro a b ha _ hab r hr r' hr'
    split_ifs at hr hr' with hbumper
    have hnone := Option.not_isSome_iff_eq_none.mp hbumper
    have hlt := hairs a ha hnone
    cases hr
    cases hr'
    exact hlt.trans_le hab

/-- Every item the pass keeps has airtime, in the lists it is asked for, and so has every airing
laid out of them. -/
structure HasAirtime (card : UnprobedItem β → String → String ⊕ Unairable → String)
    (items : List (UnprobedItem β × FileAnswer)) (extra : List (List (UnprobedItem β × FileAnswer)))
    (cache : DurationCache) (kept : List (UnprobedItem β)) (durations : List ℕ) (stats : ProbeStats)
    (extras : List (List (UnprobedItem β × ℕ))) : Prop where
  parallel : durations.length = kept.length
  /-- `dropped` names the places of the list that are left out, and no others. -/
  dropped : stats.dropped.Pairwise (· < ·) ∧ ∀ i ∈ stats.dropped, i < items.length
  airs : List.Forall₂ (fun e k => (k.1 = e.1 ∨ ∃ path reason slot,
      k.1 = makeErrorCard card e.1 path reason slot) ∧ Airtime e.2 k)
    (undropped 0 stats.dropped (media cache items)) (kept.zip durations)
  extras : List.Forall₂ (fun found resolved => List.Forall₂ (fun e k => k.1 = e.1 ∧ Airtime e.2 k)
    (found.filter readable) resolved)
    (mediaLists (items.foldl cacheAfter cache) extra) extras
  starts : ∀ start, ((sequence kept durations).itemSpans start).Pairwise fun a b => a.2.1 < b.2.1
  /-- Whatever bumpers are laid among them. -/
  rows : ∀ showIds from_ rule, (rule.filter fun e => e.1.bumper.isNone) = sequence kept durations →
    (∀ r ∈ playRecords showIds from_ rule, Records rule from_ r) ∧
      (playRecords showIds from_ rule).Pairwise fun a b => a.start < b.start

theorem KeptAs.itself_or_card {card : UnprobedItem β → String → String ⊕ Unairable → String}
    {e : UnprobedItem β × Option ℕ} {kept : UnprobedItem β × ℕ} (h : KeptAs card e kept) :
    kept.1 = e.1 ∨ ∃ path reason slot, kept.1 = makeErrorCard card e.1 path reason slot := by
  cases h with
  | config => exact Or.inl rfl
  | file => exact Or.inl rfl
  | @card path reason slot _ _ => exact Or.inr ⟨path, reason, slot, rfl⟩

theorem airtime_pos {found : List (UnprobedItem β × Option ℕ)} {kept : List (UnprobedItem β × ℕ)}
    (h : List.Forall₂ (fun e k => Airtime e.2 k) found kept) : ∀ k ∈ kept, 0 < k.2 := by
  induction h with
  | nil => exact fun k hk => absurd hk List.not_mem_nil
  | cons hk _ ih => exact List.forall_mem_cons.mpr ⟨hk.1, ih⟩

theorem airtimeLists_iff_fits {card : UnprobedItem β → String → String ⊕ Unairable → String}
    {lists : List (List (UnprobedItem β × Option ℕ))} {extras : List (List (UnprobedItem β × ℕ))}
    (h : List.Forall₂ (fun found resolved => List.Forall₂ (fun e k => k.1 = e.1 ∧ KeptAs card e k)
      (found.filter readable) resolved) lists extras) :
    List.Forall₂ (fun found resolved => List.Forall₂ (fun e k => k.1 = e.1 ∧ Airtime e.2 k)
      (found.filter readable) resolved) lists extras ↔ ∀ found ∈ lists, ∀ e ∈ found, Fits e := by
  induction h with
  | nil => simp
  | @cons found resolved lists extras hlist _ ih =>
    rw [List.forall₂_cons, ih, List.forall_mem_cons]
    refine and_congr_left fun _ => ?_
    have hfits := airtime_iff_fits (hlist.imp fun _ _ hk => hk.2)
    constructor
    · intro hair e he length hlength
      have hin : e ∈ found.filter readable :=
        List.mem_filter.mpr ⟨he, by simp [readable, hlength]⟩
      exact hfits.mp (hair.imp fun _ _ hk => hk.2) e hin length hlength
    · intro hall
      have hair := hfits.mpr fun e he => hall e (List.mem_filter.mp he).1
      exact hlist.mp (fun _ _ hk hk' => ⟨hk.1, hk'⟩) hair

/-- Everything the pass keeps has airtime exactly when each item whose file is found to have a
length begins before its out point and before the file ends. -/
theorem resolveAllWith_airtime_iff {card : UnprobedItem β → String → String ⊕ Unairable → String}
    {items : List (UnprobedItem β × FileAnswer)} {extra : List (List (UnprobedItem β × FileAnswer))}
    {cache cache' : DurationCache} {kept : List (UnprobedItem β)} {durations : List ℕ}
    {stats : ProbeStats} {extras : List (List (UnprobedItem β × ℕ))}
    (h : resolveAllWith card items extra cache = .ok (kept, durations, stats, extras, cache')) :
    HasAirtime card items extra cache kept durations stats extras ↔
      (∀ e ∈ media cache items, Fits e) ∧
        ∀ found ∈ mediaLists (items.foldl cacheAfter cache) extra, ∀ e ∈ found, Fits e := by
  obtain ⟨⟨pairs, cache₁, stats₁⟩, hall, hrest⟩ := Lib.bind_eq_ok.mp h
  obtain ⟨⟨lists, cache₂, stats₂⟩, hextra, hok⟩ := Lib.bind_eq_ok.mp hrest
  cases hok
  obtain ⟨rfl, dropped, hdropped, hsorted, hin, hrel, hread⟩ := lookAll_ok hall
  obtain ⟨hsame, hlists⟩ := lookExtras_ok card hextra
  have hleft : stats.dropped = dropped := by
    rw [hsame, hdropped]
    rfl
  have hzip : (pairs.map Prod.fst).zip (pairs.map Prod.snd) = pairs := by
    rw [List.zip_map']
    exact List.map_id pairs
  have hitems : (∀ e ∈ media cache items, Fits e) ↔
      List.Forall₂ (fun e k => Airtime e.2 k) (undropped 0 dropped (media cache items)) pairs := by
    rw [airtime_iff_fits hrel]
    constructor
    · intro hfits e he
      obtain ⟨⟨e', i⟩, hmem, rfl⟩ := List.mem_map.mp he
      exact hfits _ (List.fst_mem_of_mem_zipIdx (List.mem_filter.mp hmem).1)
    · intro hfits e he length hlength
      exact hfits e (hread e he (Option.isSome_of_eq_some hlength)) length hlength
  rw [hitems, ← airtimeLists_iff_fits hlists]
  constructor
  · intro hair
    refine ⟨?_, hair.extras⟩
    have hairs := hair.airs.imp fun _ _ hk => hk.2
    rwa [hleft, hzip] at hairs
  · rintro ⟨hair, hextras⟩
    have hpos : ∀ e ∈ sequence (pairs.map Prod.fst) (pairs.map Prod.snd), 0 < e.2 := by
      intro e he
      rw [sequence, List.map_map, List.zip_map'] at he
      obtain ⟨k, hk, rfl⟩ := List.mem_map.mp he
      exact airtime_pos hair k hk
    refine ⟨?_, ?_, ?_, hextras, fun start => itemSpans_increasing start hpos,
      fun showIds from_ rule hrule => playRecords_records showIds from_ (hrule ▸ hpos)⟩
    · rw [List.length_map, List.length_map]
    · rw [hleft]
      exact ⟨hsorted, fun i hi => by simpa using (hin i hi).2⟩
    · rw [hleft, hzip]
      exact hrel.mp (fun _ _ hk hk' => ⟨hk.itself_or_card, hk'⟩) hair

section HalfHour

def halfHour : UnprobedItem Unit := { id := "fs:1", source := .local_ "/media/a.mkv", rest := () }

def halfHourProbed : FileAnswer := ⟨.ok (1, 10), .ok (1800000000000, [.video, .audio])⟩

def unmounted : FileAnswer := ⟨.error "file not found", .error (.ffprobeUnavailable "spawn")⟩

/-- One from a catalog row, so that a card can take its slot. -/
def listed : UnprobedItem Unit :=
  { halfHour with catalogDuration := some 1800000000000, catalog_pos := by simp }

def plainCard (_ : UnprobedItem Unit) (path : String) (_ : String ⊕ Unairable) : String := path

theorem resolveAllWith_airtime_unmounted :
    HasAirtime plainCard
      [(halfHour, halfHourProbed), (listed, unmounted), (halfHour, unmounted)] [] {}
      [halfHour,
        makeErrorCard plainCard listed "/media/a.mkv" (.inl "file not found") 1800000000000]
      [1800000000000, 1800000000000] { fromProbe := 1, errorCards := 1, dropped := [2] } [] := by
  refine (resolveAllWith_airtime_iff rfl).mpr
    ⟨?_, fun found hfound => absurd hfound List.not_mem_nil⟩
  have hmedia : media {} [(halfHour, halfHourProbed), (listed, unmounted), (halfHour, unmounted)] =
      [(halfHour, some 1800000000000), (listed, none), (halfHour, none)] := rfl
  rw [hmedia]
  intro e he length hlength
  simp only [List.mem_cons, List.not_mem_nil, or_false] at he
  rcases he with rfl | rfl | rfl
  · cases hlength
    decide
  · cases hlength
  · cases hlength

def fromFortieth : UnprobedItem Unit := { halfHour with inPoint := some 2400000000000 }

/-- It is kept with no length, and the item after it begins where it does. -/
theorem fromFortieth_no_airtime : ∃ stats extras cache',
    resolveAllWith plainCard [(fromFortieth, halfHourProbed), (halfHour, halfHourProbed)] [] {} =
      .ok ([fromFortieth, halfHour], [0, 1800000000000], stats, extras, cache') ∧
    ¬ HasAirtime plainCard [(fromFortieth, halfHourProbed), (halfHour, halfHourProbed)] [] {}
      [fromFortieth, halfHour] [0, 1800000000000] stats extras := by
  refine ⟨_, _, _, rfl, fun hair => ?_⟩
  have hstarts := hair.starts 0
  simp only [sequence, List.map_cons, List.map_nil, List.zip_cons_cons, List.zip_nil_right,
    Sequential.itemSpans, List.pairwise_cons, List.mem_singleton, forall_eq] at hstarts
  exact absurd hstarts.1 (by decide)

end HalfHour

end EtvStation
