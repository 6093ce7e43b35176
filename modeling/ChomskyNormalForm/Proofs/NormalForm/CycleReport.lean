import ChomskyNormalForm.Form.Normal
import ChomskyNormalForm.Proofs.Analysis.Cycle
import ChomskyNormalForm.Proofs.Trace.Helpers

namespace ChomskyNormalForm

def SearchStep.entered : SearchStep → List Symbol
  | visit path => path.getLast?.toList
  | _ => []

def SearchStep.finished : SearchStep → List Symbol
  | backtrack v => [v]
  | _ => []

namespace CycleSearch

variable {next : Symbol → List Symbol} {heads : List Symbol} {s t : CycleSearch}

def entered (s : CycleSearch) : List Symbol := s.steps.toList.flatMap SearchStep.entered

def finished (s : CycleSearch) : List Symbol := s.steps.toList.flatMap SearchStep.finished

/-- The steps tell which variables were visited, in their order, and which of them are not on the
path any more. -/
structure IsRecorded (heads : List Symbol) (s : CycleSearch) : Prop where
  entered_eq : s.entered = s.visited.reverse
  nodup : s.visited.Nodup
  within : s.visited ⊆ heads
  finished_perm : (s.finished ++ spine s.stack).Perm s.visited

theorem IsRecorded.start (heads : List Symbol) : IsRecorded heads ⟨heads, [], [], #[], []⟩ :=
  ⟨rfl, .nil, List.nil_subset _, .nil⟩

theorem IsRecorded.moves (hnext : ∀ v, ∀ u ∈ next v, u ∈ heads) (hd : Descending next heads s)
    (h : IsRecorded heads s) (hm : Moves next s t) : IsRecorded heads t := by
  obtain ⟨hentered, hnodup, hwithin, hfinished⟩ := h
  have hpush : ∀ (f : SearchStep → List Symbol) (steps : Array SearchStep) (step : SearchStep),
      (steps.push step).toList.flatMap f = steps.toList.flatMap f ++ f step := by simp
  simp only [entered, finished] at hentered hfinished
  cases hm with
  | skip hr => exact ⟨hentered, hnodup, hwithin, hfinished⟩
  | @root root roots visited steps hr =>
    refine ⟨?_, List.nodup_cons.2 ⟨hr, hnodup⟩,
      List.cons_subset.2 ⟨hd.within root List.mem_cons_self, hwithin⟩, ?_⟩
    · rw [entered, hpush, hpush, hentered, List.reverse_cons]
      simp [SearchStep.entered]
    · rw [finished, hpush, hpush]
      simp only [SearchStep.finished, List.append_nil]
      exact List.perm_middle.trans (hfinished.cons root)
  | @backtrack v roots visited stack steps =>
    refine ⟨?_, hnodup, hwithin, ?_⟩
    · rw [entered, hpush]
      simpa only [SearchStep.entered, List.append_nil] using hentered
    · rwa [finished, hpush, SearchStep.finished, List.append_assoc]
  | close hw hc =>
    refine ⟨?_, hnodup, hwithin, ?_⟩
    · rw [entered, hpush]
      simpa only [SearchStep.entered, List.append_nil] using hentered
    · rw [finished, hpush]
      simpa only [SearchStep.finished, List.append_nil] using hfinished
  | pass hw hv => exact ⟨hentered, hnodup, hwithin, hfinished⟩
  | @descend v w ws roots visited stack steps hw hv =>
    have hmem := hnext v w (hd.framed.1 List.mem_cons_self)
    refine ⟨?_, List.nodup_cons.2 ⟨hv, hnodup⟩, List.cons_subset.2 ⟨hmem, hwithin⟩, ?_⟩
    · rw [entered, hpush, hpush, hentered, List.reverse_cons]
      simp [SearchStep.entered, spine]
    · rw [finished, hpush, hpush]
      simp only [SearchStep.finished, List.append_nil]
      exact List.perm_middle.trans (hfinished.cons w)

end CycleSearch

theorem transGen_of_isChain {α : Type} {r : α → α → Prop} {v : α} {l : List α}
    (h : (v :: l ++ [v]).IsChain r) : Relation.TransGen r v v := by
  rw [List.cons_append] at h
  obtain ⟨u, rest, hl⟩ := List.exists_cons_of_ne_nil (l := l ++ [v]) (by simp)
  have hlast : (u :: rest).getLast (by simp) = v := by simp [← hl]
  rw [hl, List.isChain_cons_cons] at h
  exact .head' h.1 (List.relationReflTransGen_of_exists_isChain_cons rest h.2 hlast)

theorem not_rel_of_acc {α : Type} {r : α → α → Prop} {v : α} (h : Acc r v) : ¬r v v := by
  induction h with
  | intro v _ ih => exact fun hv ↦ ih v hv hv

namespace Grammar

variable {g : Grammar} {u v : Symbol}

/-- There is an edge to each variable with an entry that stands in a body. -/
def Depends (g : Grammar) (v u : Symbol) : Prop := g.Mentions v u ∧ u ∈ g

theorem isRecorded_searchCycle (g : Grammar) :
    CycleSearch.IsRecorded g.sortedHeads g.searchCycle := by
  refine (CycleSearch.run_induct
    (P := fun s ↦ CycleSearch.Descending g.neighbours g.sortedHeads s ∧
      CycleSearch.IsRecorded g.sortedHeads s)
    (fun s t h hm ↦ ⟨h.1.moves hm, ?_⟩) ⟨.start _ _, .start _⟩).2
  exact h.2.moves mem_sortedHeads_of_mem_neighbours h.1 hm

theorem searchCycle_visits_all (hc : g.searchCycle.cycle = []) :
    g.searchCycle.entered.Perm g.heads ∧ g.searchCycle.finished.Perm g.heads := by
  have h := g.isRecorded_searchCycle
  obtain ⟨hs, hseen⟩ := searchCycle_exhausted hc
  have hvisited : g.searchCycle.visited.Perm g.heads :=
    (List.perm_ext_iff_of_nodup h.nodup g.nodup_heads).2 fun v ↦
      ⟨fun hv ↦ mem_sortedHeads.1 (h.within hv), fun hv ↦ hseen v hv⟩
  have hfinished := h.finished_perm
  rw [hs, CycleSearch.spine, List.map_nil, List.append_nil] at hfinished
  refine ⟨?_, hfinished.trans hvisited⟩
  rw [h.entered_eq]
  exact (List.reverse_perm _).trans hvisited

theorem exists_of_isCycle {c : List Symbol} (h : IsCycle g.neighbours c) :
    ∃ v l, c = v :: l ++ [v] ∧ (v :: l).Nodup ∧ c.IsChain g.Depends := by
  obtain ⟨v, l, hc, hn, hchain⟩ := h
  exact ⟨v, l, hc, hn, hchain.imp fun _ _ ↦ mem_neighbours.1⟩

theorem not_transGen_of_isSink (h : ∀ v ∈ g, CycleSearch.IsSink g.neighbours v) :
    ¬Relation.TransGen g.Depends v v := by
  intro hv
  obtain ⟨u, -, -, hvg⟩ := Relation.TransGen.tail'_iff.1 hv
  have hback : Relation.TransGen (fun u v ↦ u ∈ g.neighbours v) v v :=
    Relation.transGen_swap.1 (Relation.TransGen.mono (fun _ _ ↦ mem_neighbours.2) _ _ hv)
  exact not_rel_of_acc (h v hvg).transGen hback

theorem searchCycle_ne_nil_iff (g : Grammar) : g.searchCycle.cycle ≠ [] ↔
    ∃ v, Relation.TransGen g.Depends v v := by
  obtain ⟨hcycle, hsink⟩ := g.searchCycle_spec
  constructor
  · intro hc
    obtain ⟨v, l, he, -, hchain⟩ := exists_of_isCycle (hcycle hc)
    exact ⟨v, transGen_of_isChain (he ▸ hchain)⟩
  · intro ⟨v, hv⟩ hc
    exact not_transGen_of_isSink (hsink hc) hv

end Grammar

def Action.entered (action : Action) (vars : List Symbol) : List Symbol :=
  match action with
  | .visit _ => vars
  | _ => []

def Action.finished (action : Action) (vars : List Symbol) : List Symbol :=
  match action with
  | .backtrack => vars
  | _ => []

namespace Session

theorem flatMap_actions {f : Action → List Symbol → List Symbol} {k : SearchStep → List Symbol}
    (hf : ∀ step : SearchStep, f step.action.1 step.action.2 = k step)
    (hfin : ∀ c, f (.finiteness c) c = []) (search : CycleSearch) :
    (search.steps.toList.map SearchStep.action ++
      [(Action.finiteness search.cycle, search.cycle)]).flatMap (fun a ↦ f a.1 a.2) =
        search.steps.toList.flatMap k := by
  rw [List.flatMap_append, List.flatMap_map, List.flatMap_singleton, hfin, List.append_nil]
  exact congrArg (List.flatMap · _) (funext hf)

/-- The search for a cycle ends by itself and finds one just if there is one, a closed path that
meets no variable twice before it closes. It enters no variable twice; where there is no cycle it
enters each variable and leaves it behind. -/
theorem decideFiniteness_finds_cycle (s : Session) :
    CycleSearch.move s.grammar.neighbours s.grammar.searchCycle = none ∧
      (s.decideFiniteness.2 ≠ [] ↔ ∃ v, Relation.TransGen s.grammar.Depends v v) ∧
      (s.decideFiniteness.2 ≠ [] → 2 ≤ s.decideFiniteness.2.length ∧
        ∃ v l, s.decideFiniteness.2 = v :: l ++ [v] ∧ (v :: l).Nodup ∧
          s.decideFiniteness.2.IsChain s.grammar.Depends) ∧
      ∃ es, s.decideFiniteness.1.events = s.events ++ es ∧
        (es.flatMap fun e ↦ e.action.entered e.vars).Nodup ∧
        (s.decideFiniteness.2 = [] →
          (es.flatMap fun e ↦ e.action.entered e.vars).Perm s.grammar.heads ∧
          (es.flatMap fun e ↦ e.action.finished e.vars).Perm s.grammar.heads) := by
  obtain ⟨es, he, hes⟩ :=
    s.exists_events_note (s.grammar.searchCycle.steps.toList.map SearchStep.action ++
    [(.finiteness s.grammar.searchCycle.cycle, s.grammar.searchCycle.cycle)])
  have hentered : (es.flatMap fun e ↦ e.action.entered e.vars) = s.grammar.searchCycle.entered := by
    rw [CycleSearch.entered, ← flatMap_actions (f := Action.entered)
      (fun step ↦ by cases step <;> rfl) fun _ ↦ rfl, ← hes, List.flatMap_map]
  have hfinished : (es.flatMap fun e ↦ e.action.finished e.vars) =
      s.grammar.searchCycle.finished := by
    rw [CycleSearch.finished, ← flatMap_actions (f := Action.finished)
      (fun step ↦ by cases step <;> rfl) fun _ ↦ rfl, ← hes, List.flatMap_map]
  refine ⟨s.grammar.searchCycle_ends.2, s.grammar.searchCycle_ne_nil_iff, fun hc ↦ ?_,
    es, he, ?_, fun hc ↦ ?_⟩
  · obtain ⟨v, l, hvl, hn, hchain⟩ := Grammar.exists_of_isCycle (s.grammar.searchCycle_spec.1 hc)
    refine ⟨?_, v, l, hvl, hn, hchain⟩
    rw [decideFiniteness, hvl]
    simp
  · have h := s.grammar.isRecorded_searchCycle
    rw [hentered, h.entered_eq]
    exact List.nodup_reverse.2 h.nodup
  · rw [hentered, hfinished]
    exact Grammar.searchCycle_visits_all hc

end Session

end ChomskyNormalForm
