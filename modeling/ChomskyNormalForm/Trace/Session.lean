import ChomskyNormalForm.Fault
import ChomskyNormalForm.Grammar.Basic
import ChomskyNormalForm.Trace.Action

namespace ChomskyNormalForm

/-- A grammar as it was shown at some time. Snapshots with one serial number are one and the
same. -/
structure Snapshot where
  serial : Nat
  grammar : Grammar

structure Event where
  action : Action
  vars : List Symbol
  added : List Production
  removed : List Production
  snapshot : Snapshot

structure Trace where
  events : Array Event
  supply : Nat

def Trace.empty : Trace := ⟨#[], 0⟩

/-- A grammar that is being worked on. The stamp is the serial number of the snapshot that shows it
as it is, if there is one. -/
structure Table where
  grammar : Grammar
  stamp : Option Nat

structure Session where
  table : Table
  trace : Trace

structure Halt where
  fault : Fault
  trace : Trace

namespace Session

def grammar (s : Session) : Grammar := s.table.grammar

def ofGrammar (g : Grammar) : Session := ⟨⟨g, some 0⟩, ⟨#[], 1⟩⟩

def publish (s : Session) : Snapshot × Session :=
  match s.table.stamp with
  | some n => (⟨n, s.grammar⟩, s)
  | none =>
    let n := s.trace.supply
    (⟨n, s.grammar⟩, ⟨⟨s.grammar, some n⟩, { s.trace with supply := n + 1 }⟩)

@[simp] theorem grammar_publish (s : Session) : s.publish.2.grammar = s.grammar := by
  unfold publish
  split <;> rfl

@[simp] theorem publish_grammar (s : Session) : s.publish.1.grammar = s.grammar := by
  unfold publish
  split <;> rfl

def emit (s : Session) (action : Action) (vars : List Symbol) (added removed : List Production) :
    Session :=
  let (snapshot, s) := s.publish
  { s with trace := { s.trace with events := s.trace.events.push ⟨action, vars, added,
    removed, snapshot⟩ } }

@[simp] theorem grammar_emit (s : Session) (action : Action) (vars : List Symbol)
    (added removed : List Production) : (s.emit action vars added removed).grammar = s.grammar :=
  s.grammar_publish

def note (s : Session) (actions : List (Action × List Symbol)) : Session :=
  actions.foldl (fun s (action, vars) ↦ s.emit action vars [] []) s

@[simp] theorem grammar_note (s : Session) (actions : List (Action × List Symbol)) :
    (s.note actions).grammar = s.grammar := by
  unfold note
  induction actions generalizing s with
  | nil => rfl
  | cons a actions ih => simp only [List.foldl_cons, ih, grammar_emit]

def put (s : Session) (g : Grammar) : Session := { s with table := ⟨g, none⟩ }

def commit (s : Session) (g : Grammar) (action : Action) (vars : List Symbol)
    (added removed : List Production) : Session :=
  (s.put g).emit action vars added removed

@[simp] theorem grammar_commit (s : Session) (g : Grammar) (action : Action) (vars : List Symbol)
    (added removed : List Production) : (s.commit g action vars added removed).grammar = g :=
  grammar_emit ..

/-- Adds a production and records it, also if it is there already. -/
def commitProduction (s : Session) (p : Production) (action : Action) : Session :=
  if p.body ∈ s.grammar.bodies p.head then s.emit action [p.head] [p] []
  else s.commit (s.grammar.extend p.head [p.body]) action [p.head] [p] []

def halt (s : Session) (fault : Fault) : Halt := ⟨fault, s.trace⟩

def expect {α : Type} (s : Session) (x : Except Fault α) : Except Halt α := x.mapError s.halt

end Session

end ChomskyNormalForm
