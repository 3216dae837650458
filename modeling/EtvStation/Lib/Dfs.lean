import Mathlib.Data.Finset.Card
import Mathlib.Data.List.Chain

/-! The depth-first search for a loop in a graph given by the successors of each node: nodes on the
stack are being entered, nodes done are known to lead into no loop. -/
namespace EtvStation.Lib.Dfs

variable {α : Type}

/-- Visit the nodes of a list, one after another, until a loop is found. -/
def visitAll (visit : List α → α → Option (Except (List α) (List α))) :
    List α → List α → Option (Except (List α) (List α))
  | done, [] => some (.ok done)
  | done, a :: as =>
    match visit done a with
    | some (.ok done) => visitAll visit done as
    | found => found

/-- Visit a node: the loop it closes on the stack or one below it, or the nodes done; `none` when
the fuel runs out first. -/
def visit [DecidableEq α] (next : α → List α) : (fuel : ℕ) → (stack done : List α) → α →
    Option (Except (List α) (List α))
  | 0, _, _, _ => none
  | fuel + 1, stack, done, a =>
    if a ∈ stack then some (.error (stack.dropWhile (· ≠ a) ++ [a]))
    else if a ∈ done then some (.ok done)
    else match visitAll (visit next fuel (stack ++ [a])) done (next a) with
      | some (.ok done) => some (.ok (a :: done))
      | found => found

/-- The graph's edges, from a node to what it leads to. -/
def Leads (next : α → List α) (a b : α) : Prop := b ∈ next a

/-- A path that comes back to where it began. -/
structure Loop (next : α → List α) (path : List α) : Prop where
  chain : path.IsChain (Leads next)
  long : 2 ≤ path.length
  closed : path.head? = path.getLast?

/-- No path from the node goes on for ever. -/
def Ends (next : α → List α) (a : α) : Prop := Acc (fun b a => Leads next a b) a

variable {next : α → List α}

theorem Ends.not_transGen {a : α} (h : Ends next a) : ¬ Relation.TransGen (Leads next) a a := by
  induction h with
  | intro a _ ih =>
    intro hloop
    obtain ⟨b, hab, hba⟩ := Relation.TransGen.head'_iff.mp hloop
    exact ih b hab (Relation.TransGen.tail' hba hab)

/-- A loop leads from its first node back to it. -/
theorem Loop.transGen {path : List α} (h : Loop next path) :
    ∃ a ∈ path, Relation.TransGen (Leads next) a a := by
  obtain ⟨hchain, hlong, hclosed⟩ := h
  match path, hchain, hlong, hclosed with
  | a :: b :: rest, hchain, _, hclosed =>
    rw [List.isChain_cons_cons] at hchain
    rw [List.head?_cons, List.getLast?_cons_cons] at hclosed
    have hlast : (b :: rest).getLast (List.cons_ne_nil _ _) = a :=
      Option.some.inj ((List.getLast?_eq_some_getLast _).symm.trans hclosed.symm)
    have hback := List.relationReflTransGen_of_exists_isChain_cons rest hchain.2 hlast
    exact ⟨a, List.mem_cons_self, Relation.TransGen.head' hchain.1 hback⟩

section All

variable {v : List α → α → Option (Except (List α) (List α))} {as done : List α}

theorem visitAll_ok {P : List α → Prop} {done' : List α}
    (hv : ∀ {done a done'}, v done a = some (.ok done') → P done →
      P done' ∧ a ∈ done' ∧ done ⊆ done')
    (h : visitAll v done as = some (.ok done')) (hdone : P done) :
    P done' ∧ as ⊆ done' ∧ done ⊆ done' := by
  induction as generalizing done with
  | nil =>
    obtain rfl := Except.ok.inj (Option.some.inj h)
    exact ⟨hdone, List.nil_subset _, List.Subset.refl _⟩
  | cons a as ih =>
    rw [visitAll] at h
    split at h
    · next done₁ hone =>
      obtain ⟨hp, ha, hsub⟩ := hv hone hdone
      obtain ⟨hp', has, hsub'⟩ := ih h hp
      exact ⟨hp', List.cons_subset.mpr ⟨hsub' ha, has⟩, List.Subset.trans hsub hsub'⟩
    · next hnot => exact absurd h (hnot done')

theorem visitAll_error {loop : List α} (h : visitAll v done as = some (.error loop)) :
    ∃ done' a, a ∈ as ∧ v done' a = some (.error loop) := by
  induction as generalizing done with
  | nil => cases Option.some.inj h
  | cons a as ih =>
    rw [visitAll] at h
    split at h
    · obtain ⟨done', b, hb, hloop⟩ := ih h
      exact ⟨done', b, List.mem_cons_of_mem _ hb, hloop⟩
    · exact ⟨done, a, List.mem_cons_self, h⟩

theorem visitAll_isSome (hv : ∀ done, ∀ a ∈ as, (v done a).isSome) :
    (visitAll v done as).isSome := by
  induction as generalizing done with
  | nil => rfl
  | cons a as ih =>
    rw [visitAll]
    split
    · exact ih fun done b hb => hv done b (List.mem_cons_of_mem _ hb)
    · exact hv done a List.mem_cons_self

end All

section Visit

variable [DecidableEq α] {fuel : ℕ} {stack done : List α} {a : α}

/-- What is done leads into no loop. -/
theorem visit_ok {done' : List α} (h : visit next fuel stack done a = some (.ok done'))
    (hdone : ∀ d ∈ done, Ends next d) :
    (∀ d ∈ done', Ends next d) ∧ a ∈ done' ∧ done ⊆ done' := by
  induction fuel generalizing stack done done' a with
  | zero => cases h
  | succ fuel ih =>
    rw [visit] at h
    split_ifs at h with hstack hin
    · cases Option.some.inj h
    · obtain rfl := Except.ok.inj (Option.some.inj h)
      exact ⟨hdone, hin, List.Subset.refl _⟩
    · split at h
      · next below hbelow =>
        obtain rfl := Except.ok.inj (Option.some.inj h)
        obtain ⟨hends, hnext, hsub⟩ := visitAll_ok ih hbelow hdone
        refine ⟨fun d hd => ?_, List.mem_cons_self, List.Subset.trans hsub (List.subset_cons_self _ _)⟩
        rcases List.mem_cons.mp hd with rfl | hd
        · exact Acc.intro _ fun b hb => hends b (hnext hb)
        · exact hends d hd
      · next hnot => exact absurd h (hnot done')

/-- What is found is a loop. -/
theorem visit_error {loop : List α} (h : visit next fuel stack done a = some (.error loop))
    (hstack : (stack ++ [a]).IsChain (Leads next)) : Loop next loop := by
  induction fuel generalizing stack done a with
  | zero => cases h
  | succ fuel ih =>
    rw [visit] at h
    split_ifs at h with hin hdone
    · obtain rfl := Except.error.inj (Option.some.inj h)
      obtain ⟨before, after, rfl, hnot⟩ := List.eq_append_cons_of_mem hin
      have hdrop : (before ++ a :: after).dropWhile (· ≠ a) = a :: after := by
        rw [List.dropWhile_append_of_pos fun b hb => decide_eq_true (ne_of_mem_of_not_mem hb hnot),
          List.dropWhile_cons_of_neg (by simp)]
      rw [hdrop]
      rw [List.append_assoc] at hstack
      exact ⟨hstack.right_of_append, by simp, by rw [List.getLast?_concat, List.cons_append,
        List.head?_cons]⟩
    · cases Option.some.inj h
    · split at h
      · cases Option.some.inj h
      · obtain ⟨done', b, hb, hloop⟩ := visitAll_error h
        refine ih hloop (List.isChain_append.mpr ⟨hstack, List.IsChain.singleton _, ?_⟩)
        intro x hx y hy
        obtain rfl : a = x := by simpa using hx
        obtain rfl : b = y := by simpa using hy
        exact hb

/-- The search comes to an end where the graph is finite. -/
theorem visit_isSome {nodes : Finset α} (hnodes : ∀ a ∈ nodes, ∀ b ∈ next a, b ∈ nodes)
    (ha : a ∈ nodes) (hstack : ∀ b ∈ stack, b ∈ nodes) (hnodup : stack.Nodup)
    (hfuel : nodes.card < fuel + stack.length) : (visit next fuel stack done a).isSome := by
  induction fuel generalizing stack done a with
  | zero =>
    have hle : stack.toFinset.card ≤ nodes.card :=
      Finset.card_le_card fun b hb => hstack b (List.mem_toFinset.mp hb)
    rw [List.toFinset_card_of_nodup hnodup] at hle
    omega
  | succ fuel ih =>
    rw [visit]
    split_ifs with hin hdone
    · rfl
    · rfl
    · have hbelow : (visitAll (visit next fuel (stack ++ [a])) done (next a)).isSome := by
        refine visitAll_isSome fun done b hb => ih (hnodes a ha b hb) (fun c hc => ?_) ?_ ?_
        · rcases List.mem_append.mp hc with hc | hc
          · exact hstack c hc
          · exact List.mem_singleton.mp hc ▸ ha
        · exact List.Nodup.append hnodup (List.nodup_singleton a) (by simpa using hin)
        · rw [List.length_append, List.length_singleton]
          omega
      split
      · rfl
      · exact hbelow

end Visit

/-- Visiting every node, nothing done: it comes to an end with a loop, or else there is none. -/
theorem visitAll_exact [DecidableEq α] {nodes : Finset α} {as : List α} {fuel : ℕ}
    (hnodes : ∀ a ∈ nodes, ∀ b ∈ next a, b ∈ nodes) (has : ∀ a ∈ as, a ∈ nodes)
    (hfuel : nodes.card < fuel) :
    (∃ done, visitAll (visit next fuel []) [] as = some (.ok done) ∧ ∀ a ∈ as, Ends next a) ∨
      ∃ loop, visitAll (visit next fuel []) [] as = some (.error loop) ∧ Loop next loop := by
  have hsome : (visitAll (visit next fuel []) [] as).isSome :=
    visitAll_isSome fun done a ha => visit_isSome hnodes (has a ha) (by simp) List.nodup_nil hfuel
  cases hall : visitAll (visit next fuel []) [] as with
  | none =>
    rw [hall] at hsome
    cases hsome
  | some found =>
    cases found with
    | ok done =>
      obtain ⟨hends, hsub, -⟩ := visitAll_ok visit_ok hall (by simp)
      exact Or.inl ⟨done, rfl, fun a ha => hends a (hsub ha)⟩
    | error loop =>
      obtain ⟨done, a, -, hloop⟩ := visitAll_error hall
      exact Or.inr ⟨loop, rfl, visit_error hloop (List.IsChain.singleton a)⟩

end EtvStation.Lib.Dfs
