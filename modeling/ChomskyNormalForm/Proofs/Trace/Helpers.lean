import ChomskyNormalForm.Proofs.Grammar.Edits
import ChomskyNormalForm.Proofs.Outcome
import ChomskyNormalForm.Trace.Session

namespace ChomskyNormalForm

def Action.helpers (action : Action) (vars : List Symbol) : List Symbol :=
  match action with
  | .createHelper v _ => [v]
  | .createHelpers _ _ => vars.tail
  | _ => []

namespace Session

variable {s : Session} {g : Grammar} {action : Action} {vars : List Symbol}
  {added removed : List Production}

def events (s : Session) : List Event := s.trace.events.toList

def helpers (s : Session) : List Symbol := s.events.flatMap fun e ↦ e.action.helpers e.vars

@[simp] theorem helpers_put : (s.put g).helpers = s.helpers := rfl

theorem events_publish (s : Session) : s.publish.2.trace.events = s.trace.events := by
  unfold publish
  split <;> rfl

theorem events_emit : (s.emit action vars added removed).events =
    s.events ++ [⟨action, vars, added, removed, s.publish.1⟩] := by
  rw [events, emit, Array.toList_push, events_publish, events]

@[simp] theorem helpers_emit :
    (s.emit action vars added removed).helpers = s.helpers ++ action.helpers vars := by
  simp [helpers, events_emit]

@[simp] theorem helpers_commit :
    (s.commit g action vars added removed).helpers = s.helpers ++ action.helpers vars := by
  simp [commit]

theorem helpers_commit_of_eq_nil (h : action.helpers vars = []) :
    (s.commit g action vars added removed).helpers = s.helpers := by
  rw [helpers_commit, h, List.append_nil]

theorem exists_events_note (s : Session) (actions : List (Action × List Symbol)) :
    ∃ es, (s.note actions).events = s.events ++ es ∧
    es.map (fun e ↦ (e.action, e.vars)) = actions := by
  unfold note
  induction actions generalizing s with
  | nil => exact ⟨[], (List.append_nil _).symm, rfl⟩
  | cons a actions ih =>
    obtain ⟨es, he, hes⟩ := ih (s.emit a.1 a.2 [] [])
    refine ⟨⟨a.1, a.2, [], [], s.publish.1⟩ :: es, ?_, by rw [List.map_cons, hes]⟩
    rw [List.foldl_cons, he, events_emit, List.append_assoc]
    rfl

theorem exists_events_note_concat (s : Session) (actions : List (Action × List Symbol))
    (a : Action × List Symbol) :
    ∃ es e, (s.note (actions ++ [a])).events = s.events ++ (es ++ [e]) ∧
      es.map (fun e ↦ (e.action, e.vars)) = actions ∧ (e.action, e.vars) = a := by
  obtain ⟨es, he, hes⟩ := s.exists_events_note (actions ++ [a])
  obtain ⟨es, last, rfl, hactions, hlast⟩ := List.map_eq_append_iff.1 hes
  obtain ⟨e, rfl⟩ := List.length_eq_one_iff.1 (List.length_map _ ▸ congrArg List.length hlast)
  exact ⟨es, e, he, hactions, List.singleton_inj.1 hlast⟩

theorem helpers_note {actions : List (Action × List Symbol)} :
    (s.note actions).helpers = s.helpers ++ actions.flatMap fun a ↦ a.1.helpers a.2 := by
  obtain ⟨es, he, hes⟩ := s.exists_events_note actions
  rw [helpers, he, List.flatMap_append, ← hes, List.flatMap_map, helpers]

theorem helpers_note_of_forall {actions : List (Action × List Symbol)}
    (h : ∀ a ∈ actions, a.1.helpers a.2 = []) : (s.note actions).helpers = s.helpers := by
  rw [helpers_note, List.flatMap_eq_nil_iff.2 h, List.append_nil]

theorem grammar_commit_unless {c : Bool} (h : c = true → s.grammar = g) :
    (if c then s else s.commit g action vars added removed).grammar = g := by
  split
  · rename_i hc
    exact h hc
  · exact grammar_commit ..

theorem helpers_commit_unless {c : Bool} (h : action.helpers vars = []) :
    (if c then s else s.commit g action vars added removed).helpers = s.helpers := by
  split
  · rfl
  · exact helpers_commit_of_eq_nil h

variable {p : Production} {u : Symbol} {b : Body}

theorem start_commitProduction : (s.commitProduction p action).grammar.start = s.grammar.start := by
  rw [commitProduction]
  split
  · rw [grammar_emit]
  · rw [grammar_commit, Grammar.start_extend]

theorem mem_commitProduction : u ∈ (s.commitProduction p action).grammar ↔ u ∈ s.grammar ∨
    u = p.head := by
  rw [commitProduction]
  split
  · rename_i hp
    rw [grammar_emit, iff_self_or]
    exact fun h ↦ h ▸ Grammar.mem_of_mem_bodies hp
  · rw [grammar_commit, Grammar.mem_extend]

theorem bodies_commitProduction_of_ne {action : Action} (h : p.head ≠ u) :
    (s.commitProduction p action).grammar.bodies u = s.grammar.bodies u := by
  unfold commitProduction
  split
  · rw [grammar_emit]
  · rw [grammar_commit, Grammar.bodies, Grammar.extend, Rules.bodies_extend, if_neg h.symm,
      Grammar.bodies]

theorem mem_bodies_commitProduction : b ∈ (s.commitProduction p action).grammar.bodies u ↔
    b ∈ s.grammar.bodies u ∨ u = p.head ∧ b = p.body := by
  rw [commitProduction]
  split
  · rename_i hp
    rw [grammar_emit, iff_self_or]
    intro h
    obtain ⟨rfl, rfl⟩ := h
    exact hp
  · rw [grammar_commit, Grammar.mem_bodies_extend, List.mem_singleton]

theorem helpers_commitProduction :
    (s.commitProduction p action).helpers = s.helpers ++ action.helpers [p.head] := by
  rw [commitProduction]
  split
  · exact helpers_emit
  · exact helpers_commit

theorem expect_eq_ok {α : Type} {x : Except Fault α} {a : α} : s.expect x = .ok a ↔ x = .ok a :=
  mapError_eq_ok

end Session

end ChomskyNormalForm
