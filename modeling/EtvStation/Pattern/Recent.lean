import EtvStation.Pattern.Free

/-! The recency windows of a pool and of a channel. What trimming drops no later check can
reach, so a window answers every check as everything that aired does. -/
namespace EtvStation

/-- A window after a run of appends, each followed by a trim. -/
def trimmedWindow (limits : Limits) (start : List ItemKeys) (appends : List (List ItemKeys)) :
    List ItemKeys :=
  appends.foldl (fun recent fresh => trimRecent (recent ++ fresh) limits) start

section Windows

variable {limits : Limits} {recent history : List ItemKeys}

theorem trimmedWindow_answersLike (hl : limits.isUnconstrained = false)
    (h : AnswersLike limits recent history) (appends : List (List ItemKeys)) :
    AnswersLike limits (trimmedWindow limits recent appends) (history ++ appends.flatten) := by
  induction appends generalizing recent history with
  | nil =>
    rw [List.flatten_nil, List.append_nil]
    exact h
  | cons fresh appends ih =>
    have hstep := (h.push fresh).trim hl
    rw [List.flatten_cons, ← List.append_assoc]
    exact ih hstep

theorem trimmedWindow_answers (limits : Limits) (start : List ItemKeys)
    (appends : List (List ItemKeys)) (cand : ItemKeys) :
    conflictsWithRecent (trimmedWindow limits start appends) cand limits =
      conflictsWithRecent (start ++ appends.flatten) cand limits := by
  cases hl : limits.isUnconstrained with
  | true =>
    rw [conflictsWithRecent_of_unconstrained hl, conflictsWithRecent_of_unconstrained hl]
  | false =>
    have h := trimmedWindow_answersLike hl (.refl limits start) appends
    exact h.conflictsWithRecent_eq cand

end Windows

namespace PoolRuntime

variable {rt : PoolRuntime} {history : List ItemKeys}

theorem remember_frame (rt : PoolRuntime) (ids : List EntryId) :
    (rt.remember ids).limits = rt.limits ∧ (rt.remember ids).keys = rt.keys := by
  unfold remember
  split_ifs
  · exact ⟨rfl, rfl⟩
  · exact ⟨rfl, rfl⟩

theorem remember_answersLike (hl : rt.limits.isUnconstrained = false)
    (h : AnswersLike rt.limits rt.recent history) (ids : List EntryId) :
    AnswersLike rt.limits (rt.remember ids).recent (history ++ rt.keys.many ids) := by
  unfold remember
  rw [hl, Bool.false_or]
  split_ifs with hempty
  · rw [List.isEmpty_iff.mp hempty, PoolKeys.many, List.map_nil, List.append_nil]
    exact h
  · exact (h.push _).trim hl

theorem remembered_answersLike (hl : rt.limits.isUnconstrained = false)
    (h : AnswersLike rt.limits rt.recent history) (draws : List (List EntryId)) :
    AnswersLike rt.limits (draws.foldl remember rt).recent
      (history ++ rt.keys.many draws.flatten) := by
  induction draws generalizing rt history with
  | nil =>
    rw [List.flatten_nil, PoolKeys.many, List.map_nil, List.append_nil]
    exact h
  | cons ids draws ih =>
    obtain ⟨hlimits, hkeys⟩ := rt.remember_frame ids
    have hstep := remember_answersLike hl h ids
    have hl' : (rt.remember ids).limits.isUnconstrained = false := by rw [hlimits, hl]
    have hrest := ih hl' (by rw [hlimits]; exact hstep)
    rw [hlimits, hkeys, List.append_assoc] at hrest
    rw [List.flatten_cons, PoolKeys.many, List.map_append]
    exact hrest

end PoolRuntime

namespace ChannelHistory

/-- `remember` without its trim. -/
def rememberAll (cat : Catalog) (ch : ChannelHistory) (ids : List EntryId) : ChannelHistory :=
  if ch.isUnconstrained || ids.isEmpty then ch
  else
    let ch := match ch.limits.noRepeat with
      | .duration _ => ch.measure cat ids
      | .positions _ => ch
    { ch with recent := ch.recent ++ ids.map fun id => { id, duration := ch.lengthOf id } }

/-- The same channel but for its window, which answers like the other's. -/
structure Trims (a b : ChannelHistory) : Prop where
  frame : a = { b with recent := a.recent }
  answers : AnswersLike b.limits a.recent b.recent

variable {a b : ChannelHistory}

theorem Trims.refl (a : ChannelHistory) : a.Trims a := ⟨rfl, .refl _ _⟩

theorem measure_recent (cat : Catalog) (ch : ChannelHistory) (recent : List ItemKeys)
    (ids : List EntryId) :
    measure cat { ch with recent } ids = { ch.measure cat ids with recent } := by
  unfold measure
  dsimp only
  split_ifs
  · rfl
  · cases poolRuntimes cat (ids.filter fun id => id ∉ ch.asked).eraseDups with
    | error e => rfl
    | ok found => rfl

theorem measure_frame (cat : Catalog) (ch : ChannelHistory) (ids : List EntryId) :
    (ch.measure cat ids).limits = ch.limits ∧ (ch.measure cat ids).recent = ch.recent := by
  unfold measure
  dsimp only
  split_ifs
  · exact ⟨rfl, rfl⟩
  · cases poolRuntimes cat (ids.filter fun id => id ∉ ch.asked).eraseDups with
    | error e => exact ⟨rfl, rfl⟩
    | ok found => exact ⟨rfl, rfl⟩

theorem Trims.remember (hl : b.limits.isUnconstrained = false) (h : a.Trims b) (cat : Catalog)
    (ids : List EntryId) : (a.remember cat ids).Trims (b.rememberAll cat ids) := by
  obtain ⟨hframe, hanswers⟩ := h
  rw [hframe]
  generalize a.recent = recent at hanswers
  unfold ChannelHistory.remember ChannelHistory.rememberAll
  have hopen : ({ b with recent } : ChannelHistory).isUnconstrained = false := hl
  have hopen' : b.isUnconstrained = false := hl
  rw [hopen, hopen', Bool.false_or]
  by_cases hempty : ids.isEmpty = true
  · rw [if_pos hempty, if_pos hempty]
    exact ⟨rfl, hanswers⟩
  · rw [if_neg hempty, if_neg hempty]
    cases hgap : b.limits.noRepeat with
    | positions n => exact ⟨rfl, (hanswers.push _).trim hl⟩
    | duration d =>
      simp only [measure_recent]
      obtain ⟨hlimits, hrecent⟩ := measure_frame cat b ids
      refine ⟨rfl, ?_⟩
      dsimp only
      rw [hlimits, hrecent]
      exact (hanswers.push _).trim hl

theorem rememberAll_limits (cat : Catalog) (ch : ChannelHistory) (ids : List EntryId) :
    (ch.rememberAll cat ids).limits = ch.limits := by
  unfold rememberAll
  split_ifs
  · rfl
  · cases ch.limits.noRepeat with
    | positions n => rfl
    | duration d => exact (measure_frame cat ch ids).1

theorem rememberedAll_limits (cat : Catalog) (ch : ChannelHistory) (draws : List (List EntryId)) :
    (draws.foldl (rememberAll cat) ch).limits = ch.limits := by
  induction draws generalizing ch with
  | nil => rfl
  | cons ids draws ih =>
    rw [List.foldl_cons, ih]
    exact rememberAll_limits cat ch ids

theorem remembered_trims (hl : b.limits.isUnconstrained = false) (h : a.Trims b) (cat : Catalog)
    (draws : List (List EntryId)) :
    (draws.foldl (remember cat) a).Trims (draws.foldl (rememberAll cat) b) := by
  induction draws generalizing a b with
  | nil => exact h
  | cons ids draws ih =>
    have hl' : (b.rememberAll cat ids).limits.isUnconstrained = false := by
      rw [rememberAll_limits, hl]
    exact ih hl' (h.remember hl cat ids)

end ChannelHistory

/-- A trimmed window answers every check as the whole history does: any window trimmed after
each append, a pool's after its draws, and the channel's after everybody's. -/
theorem trimmed_answers_whole :
    (∀ (limits : Limits) (start : List ItemKeys) (appends : List (List ItemKeys)) (n : ℕ)
      (cand : ItemKeys),
      conflictsWithRecent (trimmedWindow limits start (appends.take n)) cand limits =
        conflictsWithRecent (start ++ (appends.take n).flatten) cand limits) ∧
    (∀ (rt : PoolRuntime) (draws : List (List EntryId)) (n : ℕ) (cand : ItemKeys),
      conflictsWithRecent ((draws.take n).foldl PoolRuntime.remember rt).recent cand rt.limits =
        conflictsWithRecent (rt.recent ++ rt.keys.many (draws.take n).flatten) cand rt.limits) ∧
    ∀ (cat : Catalog) (ch : ChannelHistory) (draws : List (List EntryId)) (n : ℕ)
      (cand : ItemKeys),
      conflictsWithRecent ((draws.take n).foldl (ChannelHistory.remember cat) ch).recent cand
          ch.limits =
        conflictsWithRecent ((draws.take n).foldl (ChannelHistory.rememberAll cat) ch).recent cand
          ch.limits := by
  refine ⟨fun limits start appends n => trimmedWindow_answers limits start _, ?_, ?_⟩
  · intro rt draws n cand
    cases hl : rt.limits.isUnconstrained with
    | true =>
      rw [conflictsWithRecent_of_unconstrained hl, conflictsWithRecent_of_unconstrained hl]
    | false =>
      have h := PoolRuntime.remembered_answersLike hl (.refl _ _) (draws.take n)
      exact h.conflictsWithRecent_eq cand
  · intro cat ch draws n cand
    cases hl : ch.limits.isUnconstrained with
    | true =>
      rw [conflictsWithRecent_of_unconstrained hl, conflictsWithRecent_of_unconstrained hl]
    | false =>
      have h := ChannelHistory.remembered_trims hl (.refl ch) cat (draws.take n)
      have hlimits := ChannelHistory.rememberedAll_limits cat ch (draws.take n)
      have hanswers := h.answers
      rw [hlimits] at hanswers
      exact hanswers.conflictsWithRecent_eq cand

end EtvStation
