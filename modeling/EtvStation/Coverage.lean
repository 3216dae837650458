import EtvStation.Heal
import Mathlib.Order.Bounds.Basic

/-! What the scan for holes finds: the first instant nothing covers while something later is laid,
and nothing at all in a schedule without holes. -/
namespace EtvStation

variable {β : Type}

/-- No span holds `t`, and one opens after it. -/
def Unspanned (spans : List (ℤ × ℤ)) (t : ℤ) : Prop :=
  (∀ s ∈ spans, ¬ (s.1 ≤ t ∧ t < s.2)) ∧ ∃ s ∈ spans, t < s.1

/-- Of spans in the order they open, the walk stops at the first gap. -/
theorem holeIn_isLeast {horizon : ℤ} {spans : List (ℤ × ℤ)}
    (hsorted : spans.Pairwise fun a b => a.1 ≤ b.1) (hnear : ∀ s ∈ spans, s.1 < horizon)
    (coveredTo : ℤ) {g : ℤ} :
    holeIn horizon coveredTo spans = some g ↔
      IsLeast {t | coveredTo ≤ t ∧ Unspanned spans t} g := by
  induction spans generalizing coveredTo with
  | nil =>
    constructor
    · nofun
    · rintro ⟨⟨-, -, s, hs, -⟩, -⟩
      exact absurd hs List.not_mem_nil
  | cons s spans ih =>
    obtain ⟨start, finish⟩ := s
    obtain ⟨hahead, hsorted⟩ := List.pairwise_cons.mp hsorted
    have hnear' : ∀ s ∈ spans, s.1 < horizon := fun s hs => hnear s (List.mem_cons_of_mem _ hs)
    rw [holeIn]
    split_ifs with hopens hfar
    · have hleast :
          IsLeast {t | coveredTo ≤ t ∧ Unspanned ((start, finish) :: spans) t} coveredTo := by
        refine ⟨⟨le_rfl, fun s hs hin => ?_, _, List.mem_cons_self, hopens⟩, fun t ht => ht.1⟩
        rcases List.mem_cons.mp hs with rfl | hs
        · exact absurd hin.1 (not_le.mpr hopens)
        · have := hahead s hs
          omega
      constructor
      · intro h
        obtain rfl := Option.some.inj h
        exact hleast
      · intro h
        rw [h.unique hleast]
    · constructor
      · nofun
      · rintro ⟨⟨hg, hfree, s, hs, hlater⟩, -⟩
        have hout := hfree _ List.mem_cons_self
        have hbefore := hnear s hs
        dsimp only at hout
        omega
    · rw [ih hsorted hnear']
      have hsame : {t | coveredTo ≤ t ∧ Unspanned ((start, finish) :: spans) t} =
          {t | max coveredTo finish ≤ t ∧ Unspanned spans t} := by
        ext t
        constructor
        · rintro ⟨ht, hfree, s, hs, hlater⟩
          have hout := hfree _ List.mem_cons_self
          dsimp only at hout
          refine ⟨by omega, fun s hs => hfree s (List.mem_cons_of_mem _ hs), s, ?_, hlater⟩
          rcases List.mem_cons.mp hs with rfl | hs
          · exact absurd hlater (by dsimp only; omega)
          · exact hs
        · rintro ⟨ht, hfree, s, hs, hlater⟩
          refine ⟨by omega, fun r hr => ?_, s, List.mem_cons_of_mem _ hs, hlater⟩
          rcases List.mem_cons.mp hr with rfl | hr
          · dsimp only
            omega
          · exact hfree r hr
      rw [hsame]

/-- The files whose names reach into `[now, horizon)`. -/
def Folder.near (files : Folder β) (now horizon : ℤ) : Folder β :=
  files.filter fun f => ¬ (f.finish ≤ now ∨ f.start ≥ horizon)

/-- What the files around `[now, horizon)` hold. -/
def Folder.nearItems (files : Folder β) (now horizon : ℤ) : List (PlayoutItem β) :=
  (files.near now horizon).flatMap fun f => f.items.getD []

/-- The spans the scan walks, by their starts. -/
def Folder.nearSpans (files : Folder β) (now horizon : ℤ) : List (ℤ × ℤ) :=
  (((files.nearItems now horizon).filter fun i => i.finish > now ∧ i.start < horizon).map
    fun i => (i.start, i.finish)).insertionSort fun a b => a.1 ≤ b.1

/-- Nothing the files around hold is on air at `t`, and something that is not over by `now` begins
after it and before the horizon. -/
structure Hole (files : Folder β) (now horizon t : ℤ) : Prop where
  ahead : now ≤ t
  free : ∀ a ∈ files.nearItems now horizon, ¬ (a.start ≤ t ∧ t < a.finish)
  later : ∃ a ∈ files.nearItems now horizon, t < a.start ∧ a.start < horizon ∧ now < a.finish

theorem mapM_read {files : Folder β} {items : List (List (PlayoutItem β))} :
    files.mapM ChunkFile.read = .ok items ↔
      (∀ f ∈ files, f.items.isSome) ∧ items = files.map fun f => f.items.getD [] := by
  induction files generalizing items with
  | nil => exact ⟨fun h => ⟨by simp, (Except.ok.inj h).symm⟩, fun h => by rw [h.2]; rfl⟩
  | cons f files ih =>
    rw [List.mapM_cons, Lib.bind_eq_ok]
    constructor
    · rintro ⟨head, hhead, h⟩
      obtain ⟨rest, hrest, h⟩ := Lib.bind_eq_ok.mp h
      obtain ⟨hread, rfl⟩ := ih.mp hrest
      obtain rfl := Except.ok.inj h
      unfold ChunkFile.read at hhead
      cases hitems : f.items with
      | none =>
        rw [hitems] at hhead
        cases hhead
      | some its =>
        rw [hitems] at hhead
        obtain rfl := Except.ok.inj hhead
        refine ⟨fun g hg => ?_, by rw [List.map_cons, hitems]; rfl⟩
        rcases List.mem_cons.mp hg with rfl | hg
        · rw [hitems]
          rfl
        · exact hread g hg
    · rintro ⟨hread, rfl⟩
      obtain ⟨its, hitems⟩ := Option.isSome_iff_exists.mp (hread f List.mem_cons_self)
      refine ⟨its, by unfold ChunkFile.read; rw [hitems], Lib.bind_eq_ok.mpr ⟨_, ih.mpr
        ⟨fun g hg => hread g (List.mem_cons_of_mem _ hg), rfl⟩, ?_⟩⟩
      rw [List.map_cons, hitems]
      rfl

theorem mem_nearSpans {files : Folder β} {now horizon : ℤ} {s : ℤ × ℤ} :
    s ∈ files.nearSpans now horizon ↔ ∃ a ∈ files.nearItems now horizon,
      (now < a.finish ∧ a.start < horizon) ∧ (a.start, a.finish) = s := by
  unfold Folder.nearSpans
  rw [(List.perm_insertionSort _ _).mem_iff, List.mem_map]
  constructor
  · rintro ⟨a, ha, heq⟩
    obtain ⟨ha, hin⟩ := List.mem_filter.mp ha
    exact ⟨a, ha, of_decide_eq_true hin, heq⟩
  · rintro ⟨a, ha, hin, heq⟩
    exact ⟨a, List.mem_filter.mpr ⟨ha, decide_eq_true hin⟩, heq⟩

/-- The spans the scan sorts have the gaps of all that the files around hold. -/
theorem gap_spans_iff {files : Folder β} {now horizon t : ℤ} :
    (now ≤ t ∧ Unspanned (files.nearSpans now horizon) t) ↔ Hole files now horizon t := by
  constructor
  · rintro ⟨ht, hfree, s, hs, hlater⟩
    obtain ⟨b, hb, hbin, rfl⟩ := mem_nearSpans.mp hs
    refine ⟨ht, fun a ha hon => ?_, b, hb, hlater, hbin.2, hbin.1⟩
    refine hfree (a.start, a.finish) (mem_nearSpans.mpr ⟨a, ha, ?_, rfl⟩) hon
    dsimp only at hlater
    omega
  · rintro ⟨ht, hfree, b, hb, hlater, hnear, hover⟩
    refine ⟨ht, fun s hs => ?_, _, mem_nearSpans.mpr ⟨b, hb, ⟨hover, hnear⟩, rfl⟩, hlater⟩
    obtain ⟨a, ha, -, rfl⟩ := mem_nearSpans.mp hs
    exact hfree a ha

theorem holeIn_nearSpans {files : Folder β} {now horizon g : ℤ} :
    holeIn horizon now (files.nearSpans now horizon) = some g ↔
      IsLeast {t | Hole files now horizon t} g := by
  have hsorted := List.pairwise_insertionSort (fun a b : ℤ × ℤ => a.1 ≤ b.1)
    (((files.nearItems now horizon).filter fun i =>
      i.finish > now ∧ i.start < horizon).map fun i => (i.start, i.finish))
  have hnear : ∀ s ∈ files.nearSpans now horizon, s.1 < horizon := by
    intro s hs
    obtain ⟨a, -, ⟨-, hbefore⟩, rfl⟩ := mem_nearSpans.mp hs
    exact hbefore
  have hset : {t | now ≤ t ∧ Unspanned (files.nearSpans now horizon) t} =
      {t | Hole files now horizon t} := Set.ext fun t => gap_spans_iff
  rw [← hset]
  exact holeIn_isLeast hsorted hnear now

theorem firstCoverageGap_ahead {files : Folder β} {now horizon : ℤ} {gap : Option ℤ}
    (hahead : now < horizon) : firstCoverageGap files now horizon = .ok gap ↔
      (∀ f ∈ files.near now horizon, f.items.isSome) ∧
        gap = holeIn horizon now (files.nearSpans now horizon) := by
  unfold firstCoverageGap
  rw [if_neg (not_le.mpr hahead), Lib.bind_eq_ok]
  constructor
  · rintro ⟨items, hread, hgap⟩
    obtain ⟨hsome, rfl⟩ := mapM_read.mp hread
    exact ⟨hsome, (Except.ok.inj hgap).symm⟩
  · rintro ⟨hsome, rfl⟩
    exact ⟨_, mapM_read.mpr ⟨hsome, rfl⟩, rfl⟩

theorem firstCoverageGap_behind {files : Folder β} {now horizon : ℤ} (hbehind : horizon ≤ now) :
    firstCoverageGap files now horizon = .ok none := by
  unfold firstCoverageGap
  rw [if_pos hbehind]
  rfl

/-- The scan finds the first hole and nothing else: it answers where every file around can be read
(it opens none where the horizon is not ahead), with the earliest instant from now on that nothing
covers while something later is laid, and with none where there is no such instant. -/
theorem firstCoverageGap_finds (files : Folder β) (now horizon : ℤ) (gap : Option ℤ) :
    firstCoverageGap files now horizon = .ok gap ↔
      (now < horizon → ∀ f ∈ files.near now horizon, f.items.isSome) ∧
        ∀ g, gap = some g ↔ IsLeast {t | Hole files now horizon t} g := by
  rcases le_or_gt horizon now with hbehind | hahead
  · rw [firstCoverageGap_behind hbehind]
    have hnone : ∀ g, ¬ IsLeast {t | Hole files now horizon t} g := by
      rintro g ⟨⟨hfrom, -, a, -, hlater, hnear, -⟩, -⟩
      omega
    constructor
    · intro h
      obtain rfl := Except.ok.inj h
      exact ⟨fun hahead => absurd hahead (by omega), fun g => ⟨nofun, fun h => absurd h (hnone g)⟩⟩
    · rintro ⟨-, hgap⟩
      refine congrArg Except.ok (Option.eq_none_iff_forall_ne_some.mpr fun g h => ?_).symm
      exact hnone g ((hgap g).mp h)
  · rw [firstCoverageGap_ahead hahead]
    constructor
    · rintro ⟨hread, rfl⟩
      exact ⟨fun _ => hread, fun g => holeIn_nearSpans⟩
    · rintro ⟨hread, hgap⟩
      refine ⟨hread hahead, Option.ext fun g => ?_⟩
      rw [hgap g]
      exact holeIn_nearSpans.symm

end EtvStation
