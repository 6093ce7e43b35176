import ChomskyNormalForm.Form.EpsilonFree
import ChomskyNormalForm.Proofs.Analysis.Height
import ChomskyNormalForm.Proofs.Analysis.Nullable
import ChomskyNormalForm.Proofs.Trace.Helpers

namespace ChomskyNormalForm

open Grammar

namespace Session

/-- The search for nullable variables finds just those that derive the empty word, and reports each
of them once. -/
theorem findNullable_reports_erasing (s : Session) (hg : s.grammar.IsMarked) :
    ∃ t vs, s.findNullable = .ok (t, vs) ∧ (∀ v, v ∈ vs ↔ s.grammar.Erases v) ∧
      ((∀ v, ∀ b ∈ s.grammar.bodies v, ∀ a, .terminal a ∈ b → a ≠ "") →
        ∀ v, v ∈ vs ↔ s.grammar.Derives v []) ∧
      ∃ es last, t.events = s.events ++ (es ++ [last]) ∧ last.action.name = "nullable-complete" ∧
        es.map (fun e ↦ (e.action.name, e.vars)) = vs.map (fun v ↦ ("nullable-add", [v])) ∧
        vs.Nodup := by
  obtain ⟨layers, he, hnodup, hl⟩ := hg.exists_nullableLayers
  obtain ⟨es, last, hes, hactions, hlast⟩ := s.exists_events_note_concat
    (layers.flatten.map fun e ↦ (Action.nullableAdd e.1 e.2, [e.1])) (.nullableComplete,
      Symbol.sort (layered layers))
  refine ⟨_, layered layers, by rw [findNullable, expect_eq_ok.2 he]; rfl, hl,
    fun ht v ↦ (hl v).trans (erases_iff_derives_nil ht), es, last, hes,
    congrArg (·.1.name) hlast, ?_, hnodup⟩
  have hnames := congrArg (List.map fun a ↦ (a.1.name, a.2)) hactions
  rw [List.map_map, List.map_map] at hnames
  rw [layered, List.map_map]
  exact hnames

end Session

def Grammar.patchy : Grammar :=
  ⟨.var "S", .ofEntries [(.var "S", [[.var "A", .var "B", .var "A"], [.var "C"]]),
    (.var "A", [[.var "B", .var "B"], [.epsilon]]), (.var "B", [[.terminal "b"], [.var "A"]]),
    (.var "C", [[.var "D", .var "A"], [.foreign "x"]])]⟩

theorem Session.findNullable_reports_erasing_patchy : Grammar.patchy.IsMarked ∧
    let s := Session.ofGrammar .patchy
    ∃ t vs, s.findNullable = .ok (t, vs) ∧ (∀ v, v ∈ vs ↔ s.grammar.Erases v) ∧
      ((∀ v, ∀ b ∈ s.grammar.bodies v, ∀ a, .terminal a ∈ b → a ≠ "") →
        ∀ v, v ∈ vs ↔ s.grammar.Derives v []) ∧
      ∃ es last, t.events = s.events ++ (es ++ [last]) ∧ last.action.name = "nullable-complete" ∧
        es.map (fun e ↦ (e.action.name, e.vars)) = vs.map (fun v ↦ ("nullable-add", [v])) ∧
        vs.Nodup := by
  have hg : Grammar.patchy.IsMarked := Grammar.forall_mem_bodies (by decide)
  exact ⟨hg, findNullable_reports_erasing (.ofGrammar .patchy) hg⟩

namespace Session

/-- The search for productive variables finds just those that have a height, and reports each of
them once, in the round that its height says. -/
theorem findProductive_reports_heights (s : Session) (hv : ∀ v ∈ s.grammar, v.isVar = true) :
    ∃ t vs, s.findProductive = .ok (t, vs) ∧ (∀ v, v ∈ vs ↔ ∃ h, s.grammar.HasHeight h v) ∧
      (s.grammar.IsProper → ∀ v, v ∈ vs ↔ s.grammar.IsProductive v) ∧
      ∃ es last, ∃ ranks : List (Symbol × Nat), t.events = s.events ++ (es ++ [last]) ∧
        last.action.name = "fixpoint" ∧
        es.map (fun e ↦ (e.action, e.vars)) =
          ranks.map (fun r ↦ (Action.found r.2 r.1 (s.grammar.bodiesBelow r.2 r.1), [r.1])) ∧
        (∀ v h, (v, h) ∈ ranks ↔ s.grammar.HasHeight h v) ∧
        ranks.Pairwise fun p q ↦ p.2 < q.2 ∨ p.2 = q.2 ∧ p.1.text < q.1.text := by
  obtain ⟨layers, he, hl⟩ := exists_productiveLayers s.grammar
  obtain ⟨layers', he', -, hstack⟩ := exists_stack_productiveLayers s.grammar
  obtain rfl := Except.ok.inj (he'.symm.trans he)
  have hr := hstack.isRanked
  have hmem : ∀ v h, (v, h) ∈ ranking layers' ↔ s.grammar.HasHeight h v :=
    fun v h ↦ hr.mem_ranking fun v ↦ (hl v).2
  obtain ⟨es, last, hes, hactions, hlast⟩ := s.exists_events_note_concat
    ((ranking layers').map fun r ↦ (Action.found r.2 r.1 (s.grammar.bodiesBelow r.2 r.1), [r.1]))
    (.productiveFixpoint layers'.length, Symbol.sort (layered layers'))
  rw [← hr.productiveActions_eq (List.ne_nil_of_mem hstack.first_mem)] at hes
  refine ⟨_, layered layers', by rw [findProductive, expect_eq_ok.2 he]; rfl,
    fun v ↦ ⟨fun hm ↦ ?_, fun hm ↦ ?_⟩, fun hp v ↦ (hl v).trans hp.isGrounded_iff, es, last,
    ranking layers', hes, congrArg (·.1.name) hlast, hactions,
    hmem, hr.pairwise_ranking hv⟩
  · obtain ⟨h, -, hh⟩ := (hr.mem_layered v).1 hm
    exact ⟨h, hh⟩
  · obtain ⟨h, hh⟩ := hm
    exact (hl v).2 hh.1.isGrounded

end Session

def Grammar.terraced : Grammar :=
  ⟨.var "S", .ofEntries [(.var "S", [[.var "C", .var "S"], [.var "B", .var "C"]]),
    (.var "A", [[.terminal "a", .var "A"]]),
    (.var "B", [[.var "C", .var "S"], [.terminal "b"], [.epsilon]]),
    (.var "C", [[.var "B", .var "B"], [.var "S"]]), (.var "D", [[.var "E"]])]⟩

theorem Session.findProductive_reports_heights_terraced : (∀ v ∈ Grammar.terraced, v.isVar = true) ∧
    let s := Session.ofGrammar .terraced
    ∃ t vs, s.findProductive = .ok (t, vs) ∧ (∀ v, v ∈ vs ↔ ∃ h, s.grammar.HasHeight h v) ∧
      (s.grammar.IsProper → ∀ v, v ∈ vs ↔ s.grammar.IsProductive v) ∧
      ∃ es last, ∃ ranks : List (Symbol × Nat), t.events = s.events ++ (es ++ [last]) ∧
        last.action.name = "fixpoint" ∧
        es.map (fun e ↦ (e.action, e.vars)) =
          ranks.map (fun r ↦ (Action.found r.2 r.1 (s.grammar.bodiesBelow r.2 r.1), [r.1])) ∧
        (∀ v h, (v, h) ∈ ranks ↔ s.grammar.HasHeight h v) ∧
        ranks.Pairwise fun p q ↦ p.2 < q.2 ∨ p.2 = q.2 ∧ p.1.text < q.1.text := by
  have hv : ∀ v ∈ Grammar.terraced.heads, v.isVar = true := by decide
  exact ⟨hv, findProductive_reports_heights (.ofGrammar .terraced) hv⟩

end ChomskyNormalForm
