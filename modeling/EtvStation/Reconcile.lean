import EtvStation.Playout

/-! Swapping a landed render into a playout file. A pending segment is a run of consecutive
items that name one real file; the run is replaced by that file, looped or padded to its slot. -/
namespace EtvStation

/-- A segment replaced with its real file, as its ledger row is to name it. -/
structure Swapped where
  segment : String
  start : ℤ
  path : String
  deriving DecidableEq, Repr

/-- A segment whose file lands less than this long before it airs keeps its stand-in. -/
def PENDING_SWAP_LEAD : ℤ := 30 * SECOND

/-- A file's size and modification time. -/
abbrev Stamp := ℕ × ℤ

/-- What a tick reads of the clock and the disk. `prev` holds the stamps of the tick before. -/
structure SwapEnv where
  now : ℤ
  isFile : String → Bool
  stamp : String → Option Stamp
  mediaLenMs : String → Option ℕ
  prev : String → Option Stamp

structure Span where
  id : String
  start : ℤ
  finish : ℤ
  source : PlayoutItemSource
  deriving DecidableEq, Repr

/-- The file from `inMs`, and black after its end. -/
def pushLocalPadded (lenMs : String → Option ℕ) (id path : String) (inMs : ℕ) (start : ℤ)
    (durationMs : ℕ) : List Span :=
  let fileMs : ℕ := match lenMs path with
    | some len => min (len - inMs) durationMs
    | none => durationMs
  let cut : ℤ := start + fileMs * MILLISECOND
  (if 0 < fileMs then
    [⟨id, start, cut, .local_ path (some inMs) (some (inMs + fileMs))⟩] else []) ++
  if fileMs < durationMs then
    [⟨if fileMs = 0 then id else id ++ "#pad", if 0 < fileMs then cut else start,
      start + durationMs * MILLISECOND, .lavfi "color=c=black"⟩] else []

/-- Parts of a file laid end to end, numbered from `n`. -/
def pushParts (id path : String) (inMs : ℕ) : ℕ → ℤ → List ℕ → List Span
  | _, _, [] => []
  | n, at_, len :: lens =>
    ⟨s!"{id}#{n}", at_, at_ + len * MILLISECOND, .local_ path (some inMs) (some (inMs + len))⟩ ::
      pushParts id path inMs (n + 1) (at_ + len * MILLISECOND) lens

/-- Fill `durationMs` from a file: a looping one shorter than its window repeats. -/
def pushLocalSpan (lenMs : String → Option ℕ) (id path : String) (inMs windowMs : ℕ)
    (loop : Bool) (start : ℤ) (durationMs : ℕ) : List Span :=
  if loop && 0 < windowMs && windowMs < durationMs then
    let tail := durationMs % windowMs
    pushParts id path inMs 0 start
      (List.replicate (durationMs / windowMs) windowMs ++ if 0 < tail then [tail] else [])
  else pushLocalPadded lenMs id path inMs start durationMs

variable {β σ : Type}

/-- An item's id up to its first `#`. -/
def PlayoutItem.base (a : PlayoutItem β) : String := String.ofList (a.id.toList.takeWhile (· ≠ '#'))

/-- Two consecutive items of one pending segment. -/
def PlayoutItem.joins (a b : PlayoutItem β) : Bool :=
  match a.pending, b.pending with
  | some p, some q => p.path == q.path && a.base == b.base
  | _, _ => false

/-- The items in runs: a pending segment's together, every other item alone. -/
def runsOf : List (PlayoutItem β) → List (List (PlayoutItem β))
  | [] => []
  | a :: as =>
    match runsOf as with
    | (b :: run) :: runs => if a.joins b then (a :: b :: run) :: runs else [a] :: (b :: run) :: runs
    | _ => [[a]]

/-- Whether a file is there and has kept its stamp since the tick before. -/
def SwapEnv.isStable (env : SwapEnv) (path : String) : Bool :=
  env.isFile path && (env.stamp path).isSome && env.prev path == env.stamp path

/-- The length of a landed file, for a segment that is not about to air. -/
def SwapEnv.landedLen (env : SwapEnv) (path : String) (start : ℤ) : Option ℕ :=
  if env.isStable path && env.now + PENDING_SWAP_LEAD < start then
    (env.mediaLenMs path).filter (0 < ·)
  else none

/-- The swap a run is due, from its first item, with the length of its file. -/
def SwapEnv.due (env : SwapEnv) (a : PlayoutItem β) : Option (Swapped × Pending × ℕ) := do
  let p ← a.pending
  let len ← env.landedLen p.path a.start
  let segment ← a.segment
  return (⟨segment, a.start, p.path⟩, p, len)

def slotMs (start finish : ℤ) : ℕ := ((finish - start) / MILLISECOND).toNat

/-- The items a run is replaced with: copies of its first, no longer pending. -/
def SwapEnv.fresh (env : SwapEnv) (a : PlayoutItem β) (finish : ℤ) (p : Pending) (len : ℕ) :
    List (PlayoutItem β) :=
  (pushLocalSpan env.mediaLenMs a.base p.path 0 len p.loop a.start (slotMs a.start finish)).map
    fun new => { a with
      id := new.id, start := new.start, finish := new.finish, source := some new.source
      pending := none }

/-- Swap one run if it is due and its ledger row can be pointed at the file. -/
def SwapEnv.swapRun (env : SwapEnv) (record : Swapped → σ → Bool × σ)
    (run : List (PlayoutItem β)) (ledger : σ) : List (PlayoutItem β) × Option Swapped × σ :=
  match run.head?, run.getLast? with
  | some a, some z =>
    match env.due a with
    | some (swap, p, len) =>
      match record swap ledger with
      | (true, ledger) => (env.fresh a z.finish p len, some swap, ledger)
      | (false, ledger) => (run, none, ledger)
    | none => (run, none, ledger)
  | _, _ => (run, none, ledger)

def SwapEnv.swapRuns (env : SwapEnv) (record : Swapped → σ → Bool × σ) :
    List (List (PlayoutItem β)) → σ → List (PlayoutItem β) × List Swapped × σ
  | [], ledger => ([], [], ledger)
  | run :: runs, ledger =>
    let (out, swap, ledger) := env.swapRun record run ledger
    let (rest, swaps, ledger) := env.swapRuns record runs ledger
    (out ++ rest, swap.toList ++ swaps, ledger)

/-- Swap every pending segment whose real file has landed and that is not about to air. -/
def SwapEnv.swapPendingItems (env : SwapEnv) (record : Swapped → σ → Bool × σ)
    (items : List (PlayoutItem β)) (ledger : σ) : List (PlayoutItem β) × List Swapped × σ :=
  env.swapRuns record (runsOf items) ledger

/-- Spans laid end to end from `s` to `f`. -/
def SpansCover : ℤ → ℤ → List Span → Prop
  | s, f, [] => s = f
  | s, f, a :: as => a.start = s ∧ a.start ≤ a.finish ∧ SpansCover a.finish f as

theorem spansCover_append {s f : ℤ} {l m : List Span} :
    SpansCover s f (l ++ m) ↔ ∃ t, SpansCover s t l ∧ SpansCover t f m := by
  induction l generalizing s with
  | nil => simp [SpansCover]
  | cons a l ih =>
    simp only [List.cons_append, SpansCover, ih]
    constructor
    · rintro ⟨hs, hle, t, hl, hm⟩
      exact ⟨t, ⟨hs, hle, hl⟩, hm⟩
    · rintro ⟨t, ⟨hs, hle, hl⟩, hm⟩
      exact ⟨hs, hle, t, hl, hm⟩

theorem pushParts_covers (id path : String) (inMs n : ℕ) (start : ℤ) (lens : List ℕ) :
    SpansCover start (start + (lens.sum : ℕ) * MILLISECOND) (pushParts id path inMs n start lens) := by
  induction lens generalizing n start with
  | nil => simp [pushParts, SpansCover]
  | cons len lens ih =>
    have hrest := ih (n + 1) (start + len * MILLISECOND)
    have hsum : start + len * MILLISECOND + (lens.sum : ℕ) * MILLISECOND =
        start + ((len :: lens).sum : ℕ) * MILLISECOND := by
      rw [List.sum_cons]
      push_cast
      ring
    rw [hsum] at hrest
    refine ⟨rfl, ?_, hrest⟩
    simp only [MILLISECOND]
    omega

theorem pushLocalPadded_covers (lenMs : String → Option ℕ) (id path : String) (inMs : ℕ)
    (start : ℤ) (durationMs : ℕ) : SpansCover start (start + durationMs * MILLISECOND)
      (pushLocalPadded lenMs id path inMs start durationMs) := by
  unfold pushLocalPadded
  generalize hfile : (match lenMs path with
    | some len => min (len - inMs) durationMs
    | none => durationMs) = fileMs
  have hle : fileMs ≤ durationMs := by
    subst hfile
    split
    · exact Nat.min_le_right _ _
    · exact le_rfl
  rw [spansCover_append]
  refine ⟨start + fileMs * MILLISECOND, ?_, ?_⟩
  · split_ifs with hpos
    · exact ⟨rfl, by simp only [MILLISECOND]; omega, rfl⟩
    · simp only [SpansCover]
      have : fileMs = 0 := by omega
      simp [this]
  · by_cases hpad : fileMs < durationMs
    · rw [if_pos hpad]
      refine ⟨?_, ?_, rfl⟩
      · show (if 0 < fileMs then start + fileMs * MILLISECOND else start) = _
        split_ifs with hpos
        · rfl
        · have : fileMs = 0 := by omega
          simp [this]
      · show (if 0 < fileMs then start + fileMs * MILLISECOND else start) ≤ _
        simp only [MILLISECOND]
        split_ifs <;> omega
    · rw [if_neg hpad]
      have : fileMs = durationMs := by omega
      simp only [SpansCover, this]

/-- Whatever the file's length, its spans fill the whole milliseconds of the slot. -/
theorem pushLocalSpan_covers (lenMs : String → Option ℕ) (id path : String) (inMs windowMs : ℕ)
    (loop : Bool) (start : ℤ) (durationMs : ℕ) :
    SpansCover start (start + durationMs * MILLISECOND)
      (pushLocalSpan lenMs id path inMs windowMs loop start durationMs) := by
  unfold pushLocalSpan
  split_ifs with hloop
  · have hsum : (List.replicate (durationMs / windowMs) windowMs ++
        if 0 < durationMs % windowMs then [durationMs % windowMs] else []).sum = durationMs := by
      have hdiv := Nat.div_add_mod durationMs windowMs
      rw [Nat.mul_comm] at hdiv
      split_ifs with htail
      · simpa using hdiv
      · have : durationMs % windowMs = 0 := by omega
        simpa [this] using hdiv
    have hparts := pushParts_covers id path inMs 0 start
      (List.replicate (durationMs / windowMs) windowMs ++
        if 0 < durationMs % windowMs then [durationMs % windowMs] else [])
    rwa [hsum] at hparts
  · exact pushLocalPadded_covers _ _ _ _ _ _

theorem covers_map_spans {s f : ℤ} {spans : List Span} {g : Span → PlayoutItem β}
    (hstart : ∀ a, (g a).start = a.start) (hfinish : ∀ a, (g a).finish = a.finish) :
    Covers s f (spans.map g) ↔ SpansCover s f spans := by
  induction spans generalizing s with
  | nil => rfl
  | cons a spans ih =>
    simp only [List.map_cons, Covers, SpansCover, hstart, hfinish, ih]

theorem SwapEnv.fresh_covers (env : SwapEnv) (a : PlayoutItem β) (finish : ℤ) (p : Pending)
    (len : ℕ) : Covers a.start (a.start + slotMs a.start finish * MILLISECOND)
      (env.fresh a finish p len) := by
  unfold SwapEnv.fresh
  rw [covers_map_spans (fun _ => rfl) (fun _ => rfl)]
  exact pushLocalSpan_covers _ _ _ _ _ _ _ _

theorem SwapEnv.fresh_pending (env : SwapEnv) (a : PlayoutItem β) (finish : ℤ) (p : Pending)
    (len : ℕ) : ∀ b ∈ env.fresh a finish p len, b.pending = none := by
  intro b hb
  obtain ⟨new, -, rfl⟩ := List.mem_map.mp hb
  rfl

theorem runsOf_cons (a : PlayoutItem β) (as : List (PlayoutItem β)) :
    ∃ run runs, runsOf (a :: as) = (a :: run) :: runs := by
  rw [runsOf]
  split
  · split_ifs
    · exact ⟨_, _, rfl⟩
    · exact ⟨_, _, rfl⟩
  · exact ⟨_, _, rfl⟩

theorem runsOf_cons_cons {a b : PlayoutItem β} {as run : List (PlayoutItem β)}
    {runs : List (List (PlayoutItem β))} (h : runsOf (b :: as) = (b :: run) :: runs) :
    runsOf (a :: b :: as) =
      if a.joins b then (a :: b :: run) :: runs else [a] :: (b :: run) :: runs := by
  rw [runsOf, h]

/-- The runs of the items from `a` on: `a` opens one, or goes in front of the next. -/
theorem runsOf_cases (a : PlayoutItem β) (as : List (PlayoutItem β)) :
    runsOf (a :: as) = [a] :: runsOf as ∨ ∃ b bs run runs, as = b :: bs ∧ a.joins b ∧
      runsOf as = (b :: run) :: runs ∧ runsOf (a :: as) = (a :: b :: run) :: runs := by
  cases as with
  | nil => exact Or.inl rfl
  | cons b bs =>
    obtain ⟨run, runs, hruns⟩ := runsOf_cons b bs
    by_cases hjoin : a.joins b
    · refine Or.inr ⟨b, bs, run, runs, rfl, hjoin, hruns, ?_⟩
      rw [runsOf_cons_cons hruns, if_pos hjoin]
    · left
      rw [runsOf_cons_cons hruns, if_neg hjoin, hruns]

theorem flatten_runsOf (items : List (PlayoutItem β)) : (runsOf items).flatten = items := by
  induction items with
  | nil => rfl
  | cons a as ih =>
    rcases runsOf_cases a as with h | ⟨b, bs, run, runs, rfl, -, hruns, h⟩
    · rw [h, List.flatten_cons, ih]
      rfl
    · rw [h, ← ih, hruns]
      rfl

/-- A run is not empty, and its items join one to the next. -/
theorem runsOf_chain {items run : List (PlayoutItem β)} (h : run ∈ runsOf items) :
    run ≠ [] ∧ run.IsChain fun a b => a.joins b := by
  induction items generalizing run with
  | nil => exact absurd h List.not_mem_nil
  | cons a as ih =>
    rcases runsOf_cases a as with heq | ⟨b, bs, tail, runs, rfl, hjoin, hruns, heq⟩
    · rw [heq] at h
      rcases List.mem_cons.mp h with rfl | h
      · exact ⟨List.cons_ne_nil _ _, List.IsChain.singleton _⟩
      · exact ih h
    · rw [heq] at h
      rcases List.mem_cons.mp h with rfl | h
      · refine ⟨List.cons_ne_nil _ _, List.isChain_cons_cons.mpr ⟨hjoin, ?_⟩⟩
        exact (ih (hruns ▸ List.mem_cons_self)).2
      · exact ih (hruns ▸ List.mem_cons_of_mem _ h)

def answered (answer : Swapped → Bool) : Swapped → Unit → Bool × Unit := fun s _ => (answer s, ())

/-- Whether the run that opens with `a` is swapped. -/
def SwapEnv.swaps (env : SwapEnv) (answer : Swapped → Bool) (a : PlayoutItem β) : Bool :=
  match env.due a with
  | some (swap, _, _) => answer swap
  | none => false

theorem SwapEnv.due_eq_some {env : SwapEnv} {a : PlayoutItem β} {swap : Swapped} {p : Pending}
    {len : ℕ} (h : env.due a = some (swap, p, len)) :
    a.pending = some p ∧ env.now + PENDING_SWAP_LEAD < a.start ∧ swap.start = a.start ∧
      swap.path = p.path ∧ a.segment = some swap.segment := by
  simp only [due, Option.bind_eq_bind, Option.pure_def, Option.bind_eq_some_iff,
    Option.some.injEq, Prod.mk.injEq] at h
  obtain ⟨q, hq, l, hl, segment, hsegment, rfl, rfl, rfl⟩ := h
  unfold landedLen at hl
  split_ifs at hl with hstable
  simp only [Bool.and_eq_true, decide_eq_true_eq] at hstable
  exact ⟨hq, hstable.2, rfl, rfl, hsegment⟩

theorem SwapEnv.swaps_of_not_pending {env : SwapEnv} {answer : Swapped → Bool}
    {a : PlayoutItem β} (h : a.pending = none) : env.swaps answer a = false := by
  unfold SwapEnv.swaps SwapEnv.due
  rw [h]
  rfl

def SwapEnv.Settled (env : SwapEnv) (answer : Swapped → Bool)
    (runs : List (List (PlayoutItem β))) : Prop :=
  ∀ run ∈ runs, ∀ a, run.head? = some a → env.swaps answer a = false

variable {env : SwapEnv} {answer : Swapped → Bool}

theorem settled_cons {a : PlayoutItem β} {as : List (PlayoutItem β)}
    (ha : env.swaps answer a = false) (h : env.Settled answer (runsOf (a :: as)).tail) :
    env.Settled answer (runsOf (a :: as)) := by
  obtain ⟨run, runs, hruns⟩ := runsOf_cons a as
  rw [hruns] at h ⊢
  intro r hr b hb
  rcases List.mem_cons.mp hr with rfl | hr
  · obtain rfl : a = b := by simpa using hb
    exact ha
  · exact h r hr b hb

theorem settled_tail (a : PlayoutItem β) {as : List (PlayoutItem β)}
    (h : env.Settled answer (runsOf as)) : env.Settled answer (runsOf (a :: as)).tail := by
  rcases runsOf_cases a as with heq | ⟨b, bs, run, runs, rfl, -, hruns, heq⟩
  · rw [heq]
    exact h
  · rw [heq]
    exact fun r hr => h r (hruns ▸ List.mem_cons_of_mem _ hr)

/-- A run in front of settled items has its own head and no other. -/
theorem settled_run_tail {run rest : List (PlayoutItem β)} (hne : run ≠ [])
    (hchain : run.IsChain fun a b => a.joins b) (h : env.Settled answer (runsOf rest)) :
    env.Settled answer (runsOf (run ++ rest)).tail := by
  induction run with
  | nil => exact absurd rfl hne
  | cons a run ih =>
    cases run with
    | nil => exact settled_tail a h
    | cons b run =>
      obtain ⟨hjoin, hchain⟩ := List.isChain_cons_cons.mp hchain
      have htail := ih (List.cons_ne_nil _ _) hchain
      obtain ⟨r, runs, hruns⟩ := runsOf_cons b (run ++ rest)
      rw [List.cons_append] at htail
      rw [List.cons_append, List.cons_append, runsOf_cons_cons hruns, if_pos hjoin]
      rw [hruns] at htail
      exact htail

theorem settled_unpending {out rest : List (PlayoutItem β)} (hout : ∀ a ∈ out, a.pending = none)
    (h : env.Settled answer (runsOf rest)) : env.Settled answer (runsOf (out ++ rest)) := by
  induction out with
  | nil => exact h
  | cons a out ih =>
    have hrest := ih fun b hb => hout b (List.mem_cons_of_mem _ hb)
    exact settled_cons (SwapEnv.swaps_of_not_pending (hout a List.mem_cons_self))
      (settled_tail a hrest)

/-- What becomes of one run. -/
theorem swapRun_answered (env : SwapEnv) (answer : Swapped → Bool) {run : List (PlayoutItem β)} {a z : PlayoutItem β}
    (ha : run.head? = some a) (hz : run.getLast? = some z) :
    (env.swaps answer a = false ∧ env.swapRun (answered answer) run () = (run, none, ())) ∨
      ∃ swap p len, env.swaps answer a = true ∧ env.due a = some (swap, p, len) ∧
        env.swapRun (answered answer) run () = (env.fresh a z.finish p len, some swap, ()) := by
  unfold SwapEnv.swapRun SwapEnv.swaps
  cases hdue : env.due a with
  | none =>
    left
    simp only [ha, hz, hdue, true_and]
  | some due =>
    obtain ⟨swap, p, len⟩ := due
    cases hanswer : answer swap with
    | false =>
      left
      simp only [ha, hz, hdue, answered, hanswer, true_and]
    | true =>
      right
      refine ⟨swap, p, len, hanswer, rfl, ?_⟩
      simp only [ha, hz, hdue, answered, hanswer]

theorem swapRuns_answered (env : SwapEnv) (answer : Swapped → Bool)
    (runs : List (List (PlayoutItem β))) :
    env.swapRuns (answered answer) runs () =
      ((runs.map fun run => (env.swapRun (answered answer) run ()).1).flatten,
        runs.filterMap fun run => (env.swapRun (answered answer) run ()).2.1, ()) := by
  induction runs with
  | nil => rfl
  | cons run runs ih =>
    rw [SwapEnv.swapRuns, List.map_cons, List.flatten_cons, List.filterMap_cons]
    generalize env.swapRun (answered answer) run () = one
    obtain ⟨out, swap, ⟨⟩⟩ := one
    cases swap with
    | none => simp only [ih, Option.toList_none, List.nil_append]
    | some swap => simp only [ih, Option.toList_some, List.singleton_append]

theorem exists_ends {run : List (PlayoutItem β)} (h : run ≠ []) :
    ∃ a z, run.head? = some a ∧ run.getLast? = some z :=
  ⟨run.head h, run.getLast h, List.head?_eq_some_head h, List.getLast?_eq_some_getLast h⟩

theorem settled_swapRuns (env : SwapEnv) (answer : Swapped → Bool)
    {runs : List (List (PlayoutItem β))}
    (hruns : ∀ run ∈ runs, run ≠ [] ∧ run.IsChain fun a b => a.joins b) :
    env.Settled answer
      (runsOf (runs.map fun run => (env.swapRun (answered answer) run ()).1).flatten) := by
  induction runs with
  | nil => exact fun run hrun => absurd hrun List.not_mem_nil
  | cons run runs ih =>
    have hrest := ih fun r hr => hruns r (List.mem_cons_of_mem _ hr)
    obtain ⟨hne, hchain⟩ := hruns run List.mem_cons_self
    obtain ⟨a, z, ha, hz⟩ := exists_ends hne
    rw [List.map_cons, List.flatten_cons]
    rcases swapRun_answered env answer ha hz with
      ⟨hkeep, heq⟩ | ⟨swap, p, len, -, -, heq⟩
    · rw [heq]
      have htail := settled_run_tail hne hchain hrest
      obtain ⟨b, run, rfl⟩ := List.exists_cons_of_ne_nil hne
      obtain rfl : b = a := by simpa using ha
      exact settled_cons hkeep htail
    · rw [heq]
      exact settled_unpending (env.fresh_pending _ _ _ _) hrest

theorem swapRuns_settled {runs : List (List (PlayoutItem β))} (hne : ∀ run ∈ runs, run ≠ [])
    (h : env.Settled answer runs) :
    env.swapRuns (answered answer) runs () = (runs.flatten, [], ()) := by
  induction runs with
  | nil => rfl
  | cons run runs ih =>
    have hrest := ih (fun r hr => hne r (List.mem_cons_of_mem _ hr))
      fun r hr => h r (List.mem_cons_of_mem _ hr)
    obtain ⟨a, z, ha, hz⟩ := exists_ends (hne run List.mem_cons_self)
    have hkeep := h run List.mem_cons_self a ha
    rcases swapRun_answered env answer ha hz with
      ⟨-, heq⟩ | ⟨swap, p, len, hswaps, -⟩
    · simp only [SwapEnv.swapRuns, heq, hrest, List.flatten_cons, Option.toList_none,
        List.nil_append]
    · rw [hkeep] at hswaps
      cases hswaps

/-- A run of a timeline starts where its first item does and ends where its last one does. -/
theorem covers_run {s f : ℤ} {runs : List (List (PlayoutItem β))}
    (h : Covers s f runs.flatten) {run : List (PlayoutItem β)} (hrun : run ∈ runs)
    {a z : PlayoutItem β} (ha : run.head? = some a) (hz : run.getLast? = some z) :
    Covers a.start z.finish run := by
  induction runs generalizing s with
  | nil => exact absurd hrun List.not_mem_nil
  | cons r runs ih =>
    rw [List.flatten_cons] at h
    obtain ⟨t, hr, hrest⟩ := covers_append.mp h
    rcases List.mem_cons.mp hrun with rfl | hrun
    · cases run with
      | nil => simp at ha
      | cons b run =>
        obtain rfl : b = a := by simpa using ha
        rw [hr.getLast_finish hz]
        exact hr.1 ▸ hr
    · exact ih hrest hrun

/-- The slot of a run in whole milliseconds is its slot exactly when that is a whole number. -/
theorem slotMs_eq_iff {start finish : ℤ} (h : start ≤ finish) :
    start + slotMs start finish * MILLISECOND = finish ↔ MILLISECOND ∣ finish - start := by
  simp only [slotMs, MILLISECOND]
  omega

def SwapEnv.replacement (env : SwapEnv) (answer : Swapped → Bool) (run : List (PlayoutItem β)) :
    List (PlayoutItem β) := (env.swapRun (answered answer) run ()).1

/-- A run is left as it is, or replaced by items that cover it exactly, none of them pending. -/
def SwapEnv.Replaces (env : SwapEnv) (answer : Swapped → Bool)
    (run out : List (PlayoutItem β)) : Prop :=
  ∀ a z, run.head? = some a → run.getLast? = some z →
    if env.swaps answer a then
      env.now + PENDING_SWAP_LEAD < a.start ∧ Covers a.start z.finish out ∧
        ∀ b ∈ out, b.pending = none
    else out = run

/-- The swap keeps the timeline: the span is covered as before, run for run, the swaps reported
are those made, and a second call makes none. -/
structure SwapEnv.SwapsSoundly (env : SwapEnv) (answer : Swapped → Bool) (s f : ℤ)
    (items : List (PlayoutItem β)) : Prop where
  covers : Covers s f (env.swapPendingItems (answered answer) items ()).1
  inPlace : (env.swapPendingItems (answered answer) items ()).1 =
    ((runsOf items).map (env.replacement answer)).flatten
  replaces : ∀ run ∈ runsOf items, env.Replaces answer run (env.replacement answer run)
  reported : (env.swapPendingItems (answered answer) items ()).2.1 =
    (runsOf items).filterMap fun run => run.head?.bind fun a =>
      if env.swaps answer a then (env.due a).map (·.1) else none
  again : env.swapPendingItems (answered answer)
      (env.swapPendingItems (answered answer) items ()).1 () =
    ((env.swapPendingItems (answered answer) items ()).1, [], ())

theorem reported_eq {runs : List (List (PlayoutItem β))} (hne : ∀ run ∈ runs, run ≠ []) :
    runs.filterMap (fun run => (env.swapRun (answered answer) run ()).2.1) =
      runs.filterMap fun run => run.head?.bind fun a =>
        if env.swaps answer a then (env.due a).map (·.1) else none := by
  refine List.filterMap_congr fun run hrun => ?_
  obtain ⟨a, z, ha, hz⟩ := exists_ends (hne run hrun)
  rcases swapRun_answered env answer ha hz with
    ⟨hkeep, heq⟩ | ⟨swap, p, len, hswaps, hdue, heq⟩
  · simp [heq, ha, hkeep]
  · simp [heq, ha, hswaps, hdue]

theorem covers_replacements {s f : ℤ} {runs : List (List (PlayoutItem β))}
    (hne : ∀ run ∈ runs, run ≠ []) (h : Covers s f runs.flatten)
    (hreplaces : ∀ run ∈ runs, env.Replaces answer run (env.replacement answer run)) :
    Covers s f (runs.map (env.replacement answer)).flatten := by
  induction runs generalizing s with
  | nil => exact h
  | cons run runs ih =>
    obtain ⟨a, z, ha, hz⟩ := exists_ends (hne run List.mem_cons_self)
    have hrun := covers_run h List.mem_cons_self ha hz
    rw [List.flatten_cons] at h
    obtain ⟨t, hr, hrest⟩ := covers_append.mp h
    have hstart : a.start = s := by
      obtain ⟨b, run, rfl⟩ := List.exists_cons_of_ne_nil (hne run List.mem_cons_self)
      obtain rfl : b = a := by simpa using ha
      exact hr.1
    have hfinish := hr.getLast_finish hz
    rw [List.map_cons, List.flatten_cons, covers_append]
    refine ⟨t, ?_, ih (fun r hr => hne r (List.mem_cons_of_mem _ hr)) hrest
      fun r hr => hreplaces r (List.mem_cons_of_mem _ hr)⟩
    have hone := hreplaces run List.mem_cons_self a z ha hz
    split_ifs at hone
    · rw [← hstart, ← hfinish]
      exact hone.2.1
    · rw [hone]
      exact hr

/-- Swapping in landed renders keeps a timeline exactly when every run it swaps fills a whole
number of milliseconds. -/
theorem swapsSoundly_iff {s f : ℤ} {items : List (PlayoutItem β)} (h : Covers s f items) :
    env.SwapsSoundly answer s f items ↔ ∀ run ∈ runsOf items, ∀ a z, run.head? = some a →
      run.getLast? = some z → env.swaps answer a → MILLISECOND ∣ z.finish - a.start := by
  have hne : ∀ run ∈ runsOf items, run ≠ [] := fun run hrun => (runsOf_chain hrun).1
  have hcovers : Covers s f (runsOf items).flatten := by rwa [flatten_runsOf]
  have hfresh : ∀ run ∈ runsOf items, ∀ a z, run.head? = some a → run.getLast? = some z →
      env.swaps answer a → env.now + PENDING_SWAP_LEAD < a.start ∧ a.start ≤ z.finish ∧
        Covers a.start (a.start + slotMs a.start z.finish * MILLISECOND)
          (env.replacement answer run) ∧ ∀ b ∈ env.replacement answer run, b.pending = none := by
    intro run hrun a z ha hz hswaps
    rcases swapRun_answered env answer ha hz with
      ⟨hkeep, -⟩ | ⟨swap, p, len, -, hdue, heq⟩
    · rw [hkeep] at hswaps
      cases hswaps
    · rw [SwapEnv.replacement, heq]
      exact ⟨(SwapEnv.due_eq_some hdue).2.1, (covers_run hcovers hrun ha hz).le,
        env.fresh_covers _ _ _ _, env.fresh_pending _ _ _ _⟩
  constructor
  · intro hsound run hrun a z ha hz hswaps
    obtain ⟨-, hle, hcov, -⟩ := hfresh run hrun a z ha hz hswaps
    have hexact := hsound.replaces run hrun a z ha hz
    rw [if_pos hswaps] at hexact
    exact (slotMs_eq_iff hle).mp (hcov.unique hexact.2.1)
  · intro hwhole
    have hreplaces : ∀ run ∈ runsOf items,
        env.Replaces answer run (env.replacement answer run) := by
      intro run hrun a z ha hz
      split_ifs with hswaps
      · obtain ⟨hlead, hle, hcov, hpending⟩ := hfresh run hrun a z ha hz hswaps
        rw [(slotMs_eq_iff hle).mpr (hwhole run hrun a z ha hz hswaps)] at hcov
        exact ⟨hlead, hcov, hpending⟩
      · rcases swapRun_answered env answer ha hz with
          ⟨-, heq⟩ | ⟨swap, p, len, hswaps', -⟩
        · rw [SwapEnv.replacement, heq]
        · exact absurd hswaps' hswaps
    have hresult := swapRuns_answered env answer (runsOf items)
    have hitems : (env.swapPendingItems (answered answer) items ()).1 =
        ((runsOf items).map (env.replacement answer)).flatten := by
      rw [SwapEnv.swapPendingItems, hresult]
      rfl
    refine ⟨?_, hitems, hreplaces, ?_, ?_⟩
    · rw [hitems]
      exact covers_replacements hne hcovers hreplaces
    · rw [SwapEnv.swapPendingItems, hresult]
      exact reported_eq hne
    · have hchains : ∀ run ∈ runsOf items, run ≠ [] ∧ run.IsChain fun a b => a.joins b :=
        fun run hrun => runsOf_chain hrun
      have hagain := swapRuns_settled (fun run hrun => (runsOf_chain hrun).1)
        (settled_swapRuns env answer hchains)
      rw [flatten_runsOf] at hagain
      rw [hitems]
      exact hagain

/-- A bumper of half a millisecond over a second whose render has landed. -/
def landed : SwapEnv where
  now := 0
  isFile _ := true
  stamp _ := some (1, 1)
  mediaLenMs _ := some 2000
  prev _ := some (1, 1)

def landedItem (finish : ℤ) : PlayoutItem Unit where
  id := "bumper:0"
  start := 60000000000
  finish := finish
  source := some (.lavfi "color=c=black")
  pending := some ⟨"/renders/next.mp4", false⟩
  segment := some "next"
  rest := ()

theorem swapsSoundly_iff_landed :
    landed.SwapsSoundly (fun _ => true) 60000000000 61000000000 [landedItem 61000000000] :=
  (swapsSoundly_iff (by decide)).mpr fun run hrun a z ha hz _ => by
    have hruns : runsOf [landedItem 61000000000] = [[landedItem 61000000000]] := rfl
    rw [hruns, List.mem_singleton] at hrun
    subst hrun
    obtain rfl : landedItem 61000000000 = a := Option.some.inj ha
    obtain rfl : landedItem 61000000000 = z := Option.some.inj hz
    decide

/-- The swapped-in file stops half a millisecond short of the slot it is to cover. -/
theorem landed_leaves_hole : Covers 60000000000 61000500000 [landedItem 61000500000] ∧
    ¬ landed.SwapsSoundly (fun _ => true) 60000000000 61000500000 [landedItem 61000500000] := by
  refine ⟨by decide, fun h => ?_⟩
  have hcovers := h.covers
  revert hcovers
  decide

end EtvStation
