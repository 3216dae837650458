import EtvStation.Lib.Traces
import EtvStation.Render.Queue
import Mathlib.Data.List.Induction

/-! Calls and sidecar share one file a job, and each writes back a copy it read before. What holds
however their steps fall, and what holds when nobody writes over a change they have not seen. -/
namespace EtvStation.Render

namespace Event

def job : Event → String
  | .queued id => id
  | .rendered id => id
  | .aired id _ => id

end Event

/-- The job was put on the queue and has not been rendered since. -/
def waits (id : String) (es : List Event) : Bool :=
  es.foldl (fun waiting e =>
    if e.job = id then
      match e with
      | .queued _ => true
      | .rendered _ => false
      | .aired _ _ => waiting
    else waiting) false

/-- The last air time a call gave the job. -/
def lastAir (id : String) (es : List Event) : Option ℤ :=
  es.foldl (fun air e =>
    if e.job = id then
      match e with
      | .aired _ t => some t
      | _ => air
    else air) none

theorem waits_others {id : String} {es' : List Event} (h : ∀ e ∈ es', e.job ≠ id)
    (es : List Event) : waits id (es ++ es') = waits id es := by
  induction es' using List.reverseRecOn with
  | nil => rw [List.append_nil]
  | append_singleton es' e ih =>
    have he := h e (by simp)
    rw [← List.append_assoc, waits, List.foldl_append, ← waits]
    simp only [List.foldl_cons, List.foldl_nil, he, if_false]
    exact ih fun e' he' => h e' (by simp [he'])

theorem lastAir_others {id : String} {es' : List Event} (h : ∀ e ∈ es', e.job ≠ id)
    (es : List Event) : lastAir id (es ++ es') = lastAir id es := by
  induction es' using List.reverseRecOn with
  | nil => rw [List.append_nil]
  | append_singleton es' e ih =>
    have he := h e (by simp)
    rw [← List.append_assoc, lastAir, List.foldl_append, ← lastAir]
    simp only [List.foldl_cons, List.foldl_nil, he, if_false]
    exact ih fun e' he' => h e' (by simp [he'])

def isQueued (job : JobState) : Bool := job.status = .queued

/-- A write whose job has a plan, and whose events say what it changes of the copy it comes from. -/
structure Sound (q : Queue) (held : Option JobState) (job : JobState) (es' : List Event) :
    Prop where
  planned : (q.plans.get job.id).isSome
  others : ∀ e ∈ es', e.job = job.id
  waits : ∀ es, waits job.id es = held.any isQueued → waits job.id (es ++ es') = isQueued job
  air : ∀ es, lastAir job.id es = held.bind (·.airAt) →
    (job.airAt = none → held.bind (·.airAt) = none) → lastAir job.id (es ++ es') = job.airAt
  renders : ∀ es, Render.waits job.id es = held.any isQueued → ∀ before id after,
    es' = before ++ .rendered id :: after → Render.waits id (es ++ before)

def Write.Fresh (q : Queue) : Write → Prop
  | .plan _ => True
  | .state held job _ =>
    q.states.get job.id = held ∧ (job.airAt = none → held.bind (·.airAt) = none)

instance (q : Queue) : DecidablePred (Write.Fresh q)
  | .plan _ => inferInstanceAs (Decidable True)
  | .state held job _ => inferInstanceAs (Decidable (q.states.get job.id = held ∧
      (job.airAt = none → held.bind (·.airAt) = none)))

def Write.Sound (q : Queue) : Write → Prop
  | .plan _ => True
  | .state held job events => Render.Sound q held job events

def Call.Sound (q : Queue) : Call → Prop
  | .updating existing _ => (q.plans.get existing.id).isSome
  | .planning _ _ _ existing => ¬ existing.any isQueued
  | .storing plan _ _ existing => (q.plans.get plan.jobId).isSome ∧ ¬ existing.any isQueued
  | _ => True

def Sidecar.Sound (q : Queue) : Sidecar → Prop
  | .listing _ _ got => ∀ j ∈ got, (q.plans.get j.id).isSome
  | .recovering jobs => ∀ j ∈ jobs, (q.plans.get j.id).isSome
  | .evicting jobs => ∀ j ∈ jobs, (q.plans.get j.id).isSome ∧ j.status = .done
  | .starting job _ => (q.plans.get job.id).isSome ∧ job.status = .queued
  | .rendering job => (q.plans.get job.id).isSome ∧ job.status = .running
  | .finishing job _ _ _ => (q.plans.get job.id).isSome ∧ job.status = .running
  | _ => True

/-- No state file without its plan, each under its job's name. -/
structure Queue.Planned (q : Queue) : Prop where
  plansKeyed : q.plans.Keyed
  statesKeyed : q.states.Keyed
  named : ∀ id job, q.states.get id = some job → job.id = id
  planned : ∀ id job, q.states.get id = some job → (q.plans.get id).isSome

structure World.Sound (w : World) : Prop where
  queue : w.queue.Planned
  calls : ∀ c ∈ w.calls, c.Sound w.queue
  sidecar : w.sidecar.Sound w.queue

theorem JobState.start_id (job : JobState) (now : ℤ) : (job.start now).id = job.id := rfl

theorem JobState.finish_id (job : JobState) (now : ℤ) (outputBytes : Option ℕ)
    (outcome : Except RenderError Rendered) : (job.finish now outputBytes outcome).id = job.id := by
  cases outcome <;> rfl

theorem JobState.finish_airAt (job : JobState) (now : ℤ) (outputBytes : Option ℕ)
    (outcome : Except RenderError Rendered) :
    (job.finish now outputBytes outcome).airAt = job.airAt := by
  cases outcome <;> rfl

theorem JobState.finish_isQueued (job : JobState) (now : ℤ) (outputBytes : Option ℕ)
    (outcome : Except RenderError Rendered) :
    isQueued (job.finish now outputBytes outcome) = false := by
  cases outcome <;> rfl

/-- A write that says nothing leaves the air time and is on the queue as its copy was. -/
theorem sound_silent {q : Queue} {held job : JobState} (hp : (q.plans.get job.id).isSome)
    (hair : job.airAt = held.airAt) (hqueued : isQueued job = isQueued held) :
    Sound q (some held) job [] := by
  constructor
  · exact hp
  · simp
  · intro es hes
    simpa [hqueued] using hes
  · intro es hes _
    simpa [hair] using hes
  · intro es _ before id after h
    cases before <;> cases h

/-- The queue after the write somebody makes, if any. -/
def Queue.after (q : Queue) (write : Option Write) : Queue :=
  (write.map fun u => (q.apply u).1).getD q

theorem Call.next_sound {q : Queue} (hq : q.Planned) {c c' : Call} (hc : c.Sound q)
    {write : Option Write} (h : c.next q = (c', write)) :
    c'.Sound (q.after write) ∧ ∀ u ∈ write, u.Sound q := by
  cases c with
  | reading plan airAt now =>
    unfold Call.next at h
    cases hget : q.states.get plan.jobId with
    | none =>
      simp only [hget, Prod.mk.injEq] at h
      obtain ⟨rfl, rfl⟩ := h
      simp [Call.Sound]
    | some existing =>
      have hplan := hq.planned _ _ hget
      rw [← hq.named _ _ hget] at hplan
      cases hstatus : existing.status with
      | failed | evicted =>
        simp only [hget, hstatus, Prod.mk.injEq] at h
        obtain ⟨rfl, rfl⟩ := h
        simp [Call.Sound, isQueued, hstatus]
      | queued | running | done =>
        simp only [hget, hstatus] at h
        cases airAt with
        | none =>
          obtain ⟨rfl, rfl⟩ := Prod.mk.inj h
          simp [Call.Sound]
        | some air =>
          dsimp only at h
          split_ifs at h
          · obtain ⟨rfl, rfl⟩ := Prod.mk.inj h
            exact ⟨hplan, by simp⟩
          · obtain ⟨rfl, rfl⟩ := Prod.mk.inj h
            simp [Call.Sound]
  | updating existing air =>
    obtain ⟨rfl, rfl⟩ := Prod.mk.inj h
    refine ⟨trivial, ?_⟩
    simp only [Option.mem_some_iff, forall_eq']
    constructor
    · exact hc
    · simp [Event.job]
    · intro es hes
      rw [Render.waits, List.foldl_append, ← Render.waits, hes]
      simp [Event.job, isQueued]
    · intro es _ _
      simp [lastAir, List.foldl_append, Event.job]
    · intro es _ before id after h
      rcases before with _ | ⟨b, before⟩
      · cases h
      · cases before <;> simp at h
  | planning plan airAt now existing =>
    obtain ⟨rfl, rfl⟩ := Prod.mk.inj h
    refine ⟨⟨?_, hc⟩, by simp [Write.Sound]⟩
    simp only [Queue.after, Option.map_some, Option.getD_some, Queue.apply]
    rw [BTreeMap.get_put hq.plansKeyed, if_pos rfl]
    rfl
  | storing plan airAt now existing =>
    obtain ⟨rfl, rfl⟩ := Prod.mk.inj h
    refine ⟨trivial, ?_⟩
    simp only [Option.mem_some_iff, forall_eq']
    constructor
    · exact hc.1
    · cases airAt <;> simp [airing, Event.job, freshState]
    · intro es _
      simp [Render.waits, List.foldl_append, Event.job, freshState, isQueued]
    · intro es hes hnone
      cases airAt with
      | none =>
        rw [hnone rfl] at hes
        simp only [airing, List.nil_append, lastAir, List.foldl_append, List.foldl_cons,
          List.foldl_nil] at hes ⊢
        simpa [freshState, Event.job] using hes
      | some air => simp [airing, lastAir, List.foldl_append, Event.job, freshState]
    · intro es _ before id after h
      have hmem : Event.rendered id ∈ airing plan.jobId airAt ++ [.queued plan.jobId] := by
        rw [h]
        simp
      cases airAt <;> simp [airing] at hmem
  | returned =>
    obtain ⟨rfl, rfl⟩ := Prod.mk.inj h
    exact ⟨trivial, by simp⟩

theorem Call.fail_sound {q : Queue} (hq : q.Planned) {c c' : Call} (hc : c.Sound q)
    {write : Option Write} (h : c.fail q = (c', write)) :
    c'.Sound (q.after write) ∧ ∀ u ∈ write, u.Sound q := by
  unfold Call.fail at h
  split at h
  · obtain ⟨rfl, rfl⟩ := Prod.mk.inj h
    exact ⟨trivial, by simp⟩
  · rename_i hnext
    obtain ⟨rfl, rfl⟩ := Prod.mk.inj h
    exact Call.next_sound hq hc hnext

theorem mem_candidates {jobs : List JobState} {now : ℤ} {job : JobState}
    (h : job ∈ candidates jobs now) : job ∈ jobs ∧ job.status = .done := by
  unfold candidates at h
  rw [List.mem_insertionSort, List.mem_filter, Bool.and_eq_true, decide_eq_true_eq] at h
  exact ⟨h.1, h.2.1⟩

theorem Purpose.listed_sound {q : Queue} {jobs : List JobState}
    (h : ∀ j ∈ jobs, (q.plans.get j.id).isSome) (purpose : Purpose) :
    (purpose.listed (inOrder jobs)).Sound q := by
  have hsorted : ∀ j ∈ inOrder jobs, (q.plans.get j.id).isSome := by
    intro j hj
    unfold inOrder at hj
    exact h j ((List.mem_insertionSort _).mp hj)
  cases purpose with
  | recover =>
    intro j hj
    exact hsorted j (List.mem_of_mem_filter hj)
  | cap now =>
    intro j hj
    have hdone := mem_candidates hj
    exact ⟨hsorted j hdone.1, hdone.2⟩
  | pick now =>
    unfold Purpose.listed
    cases hfind : (inOrder jobs).find? fun j => j.status = .queued with
    | none => trivial
    | some job =>
      have hqueued := List.find?_some hfind
      exact ⟨hsorted job (List.mem_of_find?_eq_some hfind), by simpa using hqueued⟩

theorem Sidecar.next_sound {q : Queue} (hq : q.Planned) {s s' : Sidecar} (hs : s.Sound q)
    {act : SidecarAct} {write : Option Write} (h : s.next q act = some (s', write)) :
    s'.Sound q ∧ ∀ u ∈ write, u.Sound q := by
  unfold Sidecar.next at h
  split at h
  case h_1 | h_2 | h_3 =>
    unfold Sidecar.next.readDir at h
    split_ifs at h
    obtain ⟨rfl, rfl⟩ := h
    simp [Sidecar.Sound]
  case h_4 purpose id todo got =>
    obtain ⟨rfl, rfl⟩ := h
    refine ⟨?_, by simp⟩
    intro j hj
    rcases List.mem_append.mp hj with hj | hj
    · exact hs j hj
    · have hget : q.states.get id = some j := by simpa using hj
      have hplan := hq.planned id j hget
      rwa [← hq.named id j hget] at hplan
  case h_5 purpose got =>
    obtain ⟨rfl, rfl⟩ := h
    exact ⟨Purpose.listed_sound hs purpose, by simp⟩
  case h_6 job jobs =>
    obtain ⟨rfl, rfl⟩ := h
    refine ⟨fun j hj => hs j (List.mem_cons_of_mem _ hj), ?_⟩
    simp only [Option.mem_some_iff, forall_eq']
    constructor
    · exact hs job List.mem_cons_self
    · simp [Event.job, JobState.recover]
    · intro es _
      simp [waits, List.foldl_append, Event.job, isQueued, JobState.recover]
    · intro es hes _
      simpa [lastAir, List.foldl_append, Event.job, JobState.recover] using hes
    · intro es _ before id after h
      have hmem : Event.rendered id ∈ [Event.queued job.id] := by
        rw [h]
        simp
      simp at hmem
  case h_7 job jobs =>
    obtain ⟨rfl, rfl⟩ := h
    exact ⟨fun j hj => hs j (List.mem_cons_of_mem _ hj), by simp⟩
  case h_8 =>
    obtain ⟨rfl, rfl⟩ := h
    exact ⟨trivial, by simp⟩
  case h_9 job jobs =>
    obtain ⟨rfl, rfl⟩ := h
    have hjob := hs job List.mem_cons_self
    refine ⟨fun j hj => hs j (List.mem_cons_of_mem _ hj), ?_⟩
    simp only [Option.mem_some_iff, forall_eq']
    apply sound_silent
    · exact hjob.1
    · rfl
    · simp [isQueued, JobState.evict, hjob.2]
  case h_10 job jobs | h_11 job jobs =>
    obtain ⟨rfl, rfl⟩ := h
    exact ⟨fun j hj => hs j (List.mem_cons_of_mem _ hj), by simp⟩
  case h_12 jobs =>
    obtain ⟨rfl, rfl⟩ := h
    exact ⟨trivial, by simp⟩
  case h_13 job now =>
    obtain ⟨rfl, rfl⟩ := h
    refine ⟨⟨hs.1, rfl⟩, ?_⟩
    simp only [Option.mem_some_iff, forall_eq']
    constructor
    · exact hs.1
    · simp [Event.job, JobState.start]
    · intro es _
      simp [waits, List.foldl_append, Event.job, isQueued, JobState.start]
    · intro es hes _
      simpa [lastAir, List.foldl_append, Event.job, JobState.start] using hes
    · intro es hes before id after h
      rcases before with _ | ⟨b, before⟩
      · obtain ⟨hid, -⟩ := List.cons.inj h
        rw [Event.rendered.injEq] at hid
        rw [List.append_nil, ← hid, ← JobState.start_id job now, hes]
        simp [isQueued, hs.2]
      · cases before <;> simp at h
  case h_14 =>
    obtain ⟨rfl, rfl⟩ := h
    exact ⟨trivial, by simp⟩
  case h_15 job now outputBytes outcome =>
    split at h
    · cases h
    · obtain ⟨rfl, rfl⟩ := h
      exact ⟨hs, by simp⟩
  case h_16 job now outputBytes outcome =>
    obtain ⟨rfl, rfl⟩ := h
    refine ⟨trivial, ?_⟩
    simp only [Option.mem_some_iff, forall_eq']
    apply sound_silent
    · rw [JobState.finish_id]
      exact hs.1
    · exact JobState.finish_airAt job now outputBytes outcome
    · rw [JobState.finish_isQueued]
      simp [isQueued, hs.2]
  case h_17 =>
    obtain ⟨rfl, rfl⟩ := h
    exact ⟨trivial, by simp⟩
  case h_18 => cases h

theorem Call.Sound.mono {q q' : Queue} {c : Call} (hc : c.Sound q)
    (h : ∀ id, (q.plans.get id).isSome → (q'.plans.get id).isSome) : c.Sound q' := by
  cases c with
  | reading | returned => trivial
  | updating existing air => exact h _ hc
  | planning => exact hc
  | storing => exact ⟨h _ hc.1, hc.2⟩

theorem Sidecar.Sound.mono {q q' : Queue} {s : Sidecar} (hs : s.Sound q)
    (h : ∀ id, (q.plans.get id).isSome → (q'.plans.get id).isSome) : s.Sound q' := by
  cases s with
  | down | capping | idle => trivial
  | listing | recovering => exact fun j hj => h _ (hs j hj)
  | evicting => exact fun j hj => ⟨h _ (hs j hj).1, (hs j hj).2⟩
  | starting | rendering | finishing => exact ⟨h _ hs.1, hs.2⟩

theorem Queue.Planned.apply {q : Queue} (hq : q.Planned) {write : Write} (hw : write.Sound q) :
    (q.apply write).1.Planned := by
  cases write with
  | plan plan =>
    constructor
    · exact BTreeMap.put_keyed hq.plansKeyed _ _
    · exact hq.statesKeyed
    · exact hq.named
    · intro id job hget
      simp only [Queue.apply]
      rw [BTreeMap.get_put hq.plansKeyed]
      split_ifs
      · rfl
      · exact hq.planned id job hget
  | state held job events =>
    constructor
    · exact hq.plansKeyed
    · exact BTreeMap.put_keyed hq.statesKeyed _ _
    · intro id job' hget
      simp only [Queue.apply] at hget
      rw [BTreeMap.get_put hq.statesKeyed] at hget
      split_ifs at hget with hid
      · cases hget
        exact hid.symm
      · exact hq.named id job' hget
    · intro id job' hget
      simp only [Queue.apply] at hget ⊢
      rw [BTreeMap.get_put hq.statesKeyed] at hget
      split_ifs at hget with hid
      · rw [hid]
        exact hw.planned
      · exact hq.planned id job' hget

theorem Queue.apply_plans {q : Queue} (hq : q.Planned) (write : Write) (id : String)
    (h : (q.plans.get id).isSome) : ((q.apply write).1.plans.get id).isSome := by
  cases write with
  | plan plan =>
    simp only [Queue.apply]
    rw [BTreeMap.get_put hq.plansKeyed]
    split_ifs
    · rfl
    · exact h
  | state held job events => exact h

theorem Queue.apply_states {q : Queue} (hq : q.Planned) (write : Write) (id : String)
    (h : (q.states.get id).isSome) : ((q.apply write).1.states.get id).isSome := by
  cases write with
  | plan plan => exact h
  | state held job events =>
    simp only [Queue.apply]
    rw [BTreeMap.get_put hq.statesKeyed]
    split_ifs
    · rfl
    · exact h

/-- Whoever acts reads the queue as it stands, and is as sound after the write it makes. -/
theorem World.move_sound {w w' : World} (hw : w.Sound) {a : Act} {write : Option Write}
    (h : w.move a = some (w', write)) :
    w'.queue = w.queue ∧ (∀ u ∈ write, u.Sound w.queue) ∧
      (∀ c ∈ w'.calls, c.Sound (w.queue.after write)) ∧
      w'.sidecar.Sound (w.queue.after write) := by
  have hplans : ∀ id, (w.queue.plans.get id).isSome →
      ((w.queue.after write).plans.get id).isSome := by
    intro id hid
    cases write with
    | none => exact hid
    | some u => exact w.queue.apply_plans hw.queue u id hid
  have hcalls : ∀ c ∈ w.calls, c.Sound (w.queue.after write) :=
    fun c hc => (hw.calls c hc).mono hplans
  have hside := hw.sidecar.mono hplans
  cases a with
  | enqueue plan airAt now =>
    simp only [World.move] at h
    split_ifs at h
    obtain ⟨rfl, rfl⟩ := h
    refine ⟨rfl, by simp, ?_, hside⟩
    intro c hc
    rcases List.mem_append.mp hc with hc | hc
    · exact hcalls c hc
    · rw [List.mem_singleton.mp hc]
      trivial
  | call i fails =>
    simp only [World.move, Option.map_eq_some_iff] at h
    obtain ⟨c, hget, h⟩ := h
    have hc := hw.calls c (List.mem_of_getElem? hget)
    obtain ⟨rfl, rfl⟩ := Prod.mk.inj h
    have hmoved : ∀ moved, (moved = c.next w.queue ∨ moved = c.fail w.queue) →
        moved.1.Sound (w.queue.after moved.2) ∧ ∀ u ∈ moved.2, u.Sound w.queue := by
      rintro moved (hmove | hmove)
      · exact Call.next_sound hw.queue hc hmove.symm
      · exact Call.fail_sound hw.queue hc hmove.symm
    have hboth := hmoved (if fails then c.fail w.queue else c.next w.queue) (by
      split_ifs
      · exact .inr rfl
      · exact .inl rfl)
    refine ⟨rfl, hboth.2, ?_, hside⟩
    intro c' hc'
    rcases List.mem_or_eq_of_mem_set hc' with hc' | rfl
    · exact hcalls c' hc'
    · exact hboth.1
  | sidecar act =>
    simp only [World.move, Option.map_eq_some_iff] at h
    obtain ⟨moved, hnext, h⟩ := h
    obtain ⟨rfl, rfl⟩ := Prod.mk.inj h
    have hmoved := Sidecar.next_sound hw.queue hw.sidecar hnext
    exact ⟨rfl, hmoved.2, hcalls, hmoved.1.mono hplans⟩
  | die =>
    obtain ⟨rfl, rfl⟩ := h
    exact ⟨rfl, by simp, hcalls, trivial⟩

theorem World.step_eq_some {w w' : World} {a : Act} {es : List Event}
    (h : w.step a = some (w', es)) :
    ∃ moved write, w.move a = some (moved, write) ∧
      w' = { moved with queue := moved.queue.after write } ∧
      es = (write.map fun u => (moved.queue.apply u).2).getD [] := by
  unfold World.step at h
  split at h
  · cases h
  · rename_i moved hmove
    obtain ⟨rfl, rfl⟩ := h
    exact ⟨_, none, hmove, rfl, rfl⟩
  · rename_i moved write hmove
    obtain ⟨rfl, rfl⟩ := h
    exact ⟨_, some write, hmove, rfl, rfl⟩

theorem World.step_sound {w w' : World} (hw : w.Sound) {a : Act} {es : List Event}
    (h : w.step a = some (w', es)) : w'.Sound := by
  obtain ⟨moved, write, hmove, rfl, -⟩ := World.step_eq_some h
  obtain ⟨hqueue, hwrite, hcalls, hside⟩ := World.move_sound hw hmove
  constructor
  · simp only [hqueue]
    cases write with
    | none => exact hw.queue
    | some u => exact hw.queue.apply (hwrite u rfl)
  · simpa only [hqueue] using hcalls
  · simpa only [hqueue] using hside

/-- The writer has seen the file as it is, and no call takes the air time a job has. -/
def Fresh (w : World) (a : Act) : Prop :=
  ∀ u ∈ (w.move a).bind (·.2), u.Fresh w.queue

instance (w : World) (a : Act) : Decidable (Fresh w a) :=
  inferInstanceAs (Decidable (∀ u ∈ (w.move a).bind (·.2), u.Fresh w.queue))

theorem Fresh.held {w w' : World} {a : Act} (h : Fresh w a) {held : Option JobState}
    {job : JobState} {events : List Event}
    (hmove : w.move a = some (w', some (.state held job events))) :
    w.queue.states.get job.id = held ∧ (job.airAt = none → held.bind (·.airAt) = none) := by
  apply h (.state held job events)
  rw [hmove]
  rfl

/-- The state files say what the calls and the sidecar have said. -/
structure World.Told (w : World) (es : List Event) : Prop where
  sound : w.Sound
  waits : ∀ id, waits id es = (w.queue.states.get id).any isQueued
  air : ∀ id, lastAir id es = (w.queue.states.get id).bind (·.airAt)

theorem World.Told.step {w w' : World} {es es' : List Event} (h : w.Told es) {a : Act}
    (hfresh : Fresh w a) (hstep : w.step a = some (w', es')) : w'.Told (es ++ es') := by
  have hsound := World.step_sound h.sound hstep
  obtain ⟨moved, write, hmove, rfl, rfl⟩ := World.step_eq_some hstep
  obtain ⟨hqueue, hwrite, -, -⟩ := World.move_sound h.sound hmove
  refine ⟨hsound, ?_, ?_⟩ <;> intro id <;> simp only [hqueue]
  · rcases write with _ | plan | ⟨held, job, events⟩
    · simpa [Queue.after] using h.waits id
    · simpa [Queue.after, Queue.apply] using h.waits id
    · have hsaid := hwrite _ rfl
      have hheld := (hfresh.held hmove).1
      simp only [Queue.after, Queue.apply, Option.map_some, Option.getD_some]
      rw [BTreeMap.get_put h.sound.queue.statesKeyed]
      split_ifs with hid
      · rw [hid]
        exact hsaid.waits es (by rw [h.waits, hheld])
      · rw [waits_others (fun e he heq => hid (heq.symm.trans (hsaid.others e he))), h.waits]
  · rcases write with _ | plan | ⟨held, job, events⟩
    · simpa [Queue.after] using h.air id
    · simpa [Queue.after, Queue.apply] using h.air id
    · have hsaid := hwrite _ rfl
      obtain ⟨hheld, hnone⟩ := hfresh.held hmove
      simp only [Queue.after, Queue.apply, Option.map_some, Option.getD_some]
      rw [BTreeMap.get_put h.sound.queue.statesKeyed]
      split_ifs with hid
      · rw [hid]
        exact hsaid.air es (by rw [h.air, hheld]) hnone
      · rw [lastAir_others (fun e he heq => hid (heq.symm.trans (hsaid.others e he))), h.air]

abbrev World.Runs (ok : World → Act → Prop) : World → List Event → Prop :=
  Lib.Traced World.step ok {}

theorem World.sound_init : World.Sound {} := by
  refine ⟨⟨List.nodup_nil, List.nodup_nil, ?_, ?_⟩, by simp, trivial⟩ <;> intro id job h <;> cases h

theorem World.told_init : World.Told {} [] := ⟨World.sound_init, fun _ => rfl, fun _ => rfl⟩

theorem World.Runs.sound {ok : World → Act → Prop} {w : World} {es : List Event}
    (h : World.Runs ok w es) : w.Sound :=
  h.invariant (I := fun w _ => w.Sound) World.sound_init
    fun _ _ _ _ _ hw _ hstep => World.step_sound hw hstep

theorem World.Runs.told {w : World} {es : List Event} (h : World.Runs Fresh w es) : w.Told es :=
  h.invariant World.told_init fun _ _ _ _ _ hw hok hstep => hw.step hok hstep

/-- A chapter is rendered only after it has been put on the queue since its last render. -/
theorem World.Runs.rendered_waits {w : World} {es : List Event} (h : World.Runs Fresh w es)
    {before after : List Event} {id : String} (hes : es = before ++ .rendered id :: after) :
    waits id before := by
  have hrule := h.events (I := World.Told)
    (P := fun before e => ∀ id, e = .rendered id → waits id before) World.told_init
    (fun _ _ _ _ _ hw hok hstep => hw.step hok hstep) ?_ hes
  · exact hrule id rfl
  · rintro w es a w' es' hw hok hstep before e after hes' id rfl
    obtain ⟨moved, write, hmove, rfl, rfl⟩ := World.step_eq_some hstep
    obtain ⟨-, hwrite, -, -⟩ := World.move_sound hw.sound hmove
    rcases write with _ | plan | ⟨held, job, events⟩
    · simp at hes'
    · simp [Queue.apply] at hes'
    · have hheld := (hok.held hmove).1
      refine (hwrite _ rfl).renders es ?_ before id after hes'
      rw [hw.waits, hheld]

/-- However the steps fall, a state file never exists without its plan and never disappears. Where
every write of a state file finds the copy its writer has of it, a chapter is rendered once each
time it is queued, and its air time is the last a call gave. -/
theorem renderQueue_interleaved (w : World) (es : List Event) :
    (World.Runs (fun _ _ => True) w es →
      (∀ id, (w.queue.states.get id).isSome → (w.queue.plans.get id).isSome) ∧
      ∀ a w' es', w.step a = some (w', es') →
        ∀ id, (w.queue.states.get id).isSome → (w'.queue.states.get id).isSome) ∧
    (World.Runs Fresh w es →
      (∀ before id after, es = before ++ .rendered id :: after → waits id before) ∧
      ∀ id, (w.queue.states.get id).bind (·.airAt) = lastAir id es) := by
  refine ⟨?_, ?_⟩
  · intro h
    have hsound := h.sound
    refine ⟨?_, ?_⟩
    · intro id hid
      obtain ⟨job, hget⟩ := Option.isSome_iff_exists.mp hid
      exact hsound.queue.planned id job hget
    · intro a w' es' hstep id hid
      obtain ⟨moved, write, hmove, rfl, -⟩ := World.step_eq_some hstep
      obtain ⟨hqueue, -, -, -⟩ := World.move_sound hsound hmove
      simp only [hqueue]
      cases write with
      | none => exact hid
      | some u => exact w.queue.apply_states hsound.queue u id hid
  · intro h
    refine ⟨fun before id after hes => h.rendered_waits hes, ?_⟩
    intro id
    exact (h.told.air id).symm

def chapter : Document where
  jobId := "c0ffee"
  output := "/cache/chapters/c.mp4"
  durationS := 240

def rendered : Except RenderError Rendered := .ok ⟨⟨0, 1, 2, 3⟩, []⟩

def isReturned : Call → Bool
  | .returned => true
  | _ => false

def isIdle : Sidecar → Bool
  | .idle => true
  | _ => false

/-- Nobody is in the middle of anything. -/
def World.isSettled (w : World) : Bool := w.calls.all isReturned && isIdle w.sidecar

def listDir (names : List String) : List Act :=
  .sidecar (.readDir names 2) :: List.replicate (names.length + 1) (.sidecar .proceed)

/-- The sidecar comes up with nothing to recover or evict. -/
def comeUp (names : List String) : List Act :=
  listDir names ++ [.sidecar .proceed] ++ listDir names ++ [.sidecar .rest]

def finishRender (names : List String) : List Act :=
  [.sidecar (.render 3 none rendered), .sidecar .proceed] ++ listDir names ++ [.sidecar .rest]

/-- A chapter is queued, given an air time, and rendered after that. -/
def airedThenRendered : List Act :=
  .enqueue chapter none 0 :: List.replicate 3 (.call 0 false) ++
    .enqueue chapter (some 9) 1 :: List.replicate 2 (.call 1 false) ++
    comeUp ["c0ffee"] ++ listDir ["c0ffee"] ++ [.sidecar .proceed] ++ finishRender ["c0ffee"]

/-- A chapter is given its air time while it renders. -/
def airedWhileRendering : List Act :=
  .enqueue chapter none 0 :: List.replicate 3 (.call 0 false) ++
    comeUp ["c0ffee"] ++ listDir ["c0ffee"] ++ [.sidecar .proceed] ++
    .enqueue chapter (some 9) 1 :: List.replicate 2 (.call 1 false) ++ finishRender ["c0ffee"]

/-- A call finds a chapter queued and writes its air time when the chapter is done. -/
def airedOnceDone : List Act :=
  .enqueue chapter none 0 :: List.replicate 3 (.call 0 false) ++
    .enqueue chapter (some 9) 1 :: [.call 1 false] ++
    comeUp ["c0ffee"] ++ listDir ["c0ffee"] ++ [.sidecar .proceed] ++ finishRender ["c0ffee"] ++
    [.call 1 false] ++ listDir ["c0ffee"] ++ [.sidecar .proceed]

theorem renderQueue_airedThenRendered : ∃ w es, World.Runs Fresh w es ∧ w.isSettled ∧
    .rendered "c0ffee" ∈ es ∧ (w.queue.plans.get "c0ffee").isSome ∧
      (w.queue.states.get "c0ffee").bind (·.airAt) = some 9 := by
  have hfollow : (Lib.follow World.step Fresh ({}, []) airedThenRendered).any (fun r =>
      r.1.isSettled ∧ .rendered "c0ffee" ∈ r.2 ∧ (r.1.queue.states.get "c0ffee").isSome ∧
        lastAir "c0ffee" r.2 = some 9) := by decide +kernel
  obtain ⟨r, hr, hsaid⟩ := (Option.any_eq_true _ _).mp hfollow
  obtain ⟨hsettled, hrendered, hstate, hair⟩ := of_decide_eq_true hsaid
  have hruns : World.Runs Fresh r.1 r.2 := Lib.Traced.init.follow hr
  have hplan := ((renderQueue_interleaved r.1 r.2).1 (hruns.mono fun _ _ _ => trivial)).1
    "c0ffee" hstate
  have hlast := ((renderQueue_interleaved r.1 r.2).2 hruns).2 "c0ffee"
  exact ⟨r.1, r.2, hruns, hsettled, hrendered, hplan, hlast.trans hair⟩

/-- The write that ends a render puts back the air time the job had when it began, and a call's
write puts a job that is done back on the queue. -/
theorem update_lost :
    (∃ w es, World.Runs (fun _ _ => True) w es ∧ w.isSettled ∧ lastAir "c0ffee" es = some 9 ∧
      (w.queue.states.get "c0ffee").bind (·.airAt) = none) ∧
    ∃ w es, World.Runs (fun _ _ => True) w es ∧
      ∃ before after, es = before ++ .rendered "c0ffee" :: after ∧ ¬ waits "c0ffee" before := by
  constructor
  · have hfollow : (Lib.follow World.step (fun _ _ => True) ({}, []) airedWhileRendering).any
        (fun r => r.1.isSettled ∧ lastAir "c0ffee" r.2 = some 9 ∧
          (r.1.queue.states.get "c0ffee").bind (·.airAt) = none) := by decide
    obtain ⟨r, hr, hsaid⟩ := (Option.any_eq_true _ _).mp hfollow
    exact ⟨r.1, r.2, Lib.Traced.init.follow hr, of_decide_eq_true hsaid⟩
  · have hfollow : (Lib.follow World.step (fun _ _ => True) ({}, []) airedOnceDone).any
        (fun r => r.2 = r.2.dropLast ++ [.rendered "c0ffee"] ∧
          ¬ waits "c0ffee" r.2.dropLast) := by decide
    obtain ⟨r, hr, hsaid⟩ := (Option.any_eq_true _ _).mp hfollow
    obtain ⟨hlast, hwaits⟩ := of_decide_eq_true hsaid
    exact ⟨r.1, r.2, Lib.Traced.init.follow hr, r.2.dropLast, [], hlast, hwaits⟩

end EtvStation.Render
