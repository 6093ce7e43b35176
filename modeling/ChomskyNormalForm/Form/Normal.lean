import ChomskyNormalForm.Analysis.Search
import ChomskyNormalForm.Form.EpsilonFree
import ChomskyNormalForm.Form.Helpers
import ChomskyNormalForm.Form.Trimmed
import ChomskyNormalForm.Form.UnitFree
import ChomskyNormalForm.Grammar.Notation

namespace ChomskyNormalForm

def SearchStep.action : SearchStep → Action × List Symbol
  | start root => (.startSearch, [root])
  | visit path => (.visit path, path.getLast?.toList)
  | explore source target => (.exploreEdge, [source, target])
  | backtrack v => (.backtrack, [v])
  | found cycle => (.cycleFound cycle, cycle)

/-- Decides whether the dependency graph of the grammar on the table has a cycle; gives one, or
none. -/
def Session.decideFiniteness (s : Session) : Session × List Symbol :=
  let search := s.grammar.searchCycle
  (s.note (search.steps.toList.map SearchStep.action ++ [(.finiteness search.cycle, search.cycle)]),
    search.cycle)

structure Normalization where
  trimmed : Grammar
  grammar : Grammar
  isEmpty : Bool
  /-- undecided for an empty language -/
  isInfinite : Option Bool
  cycle : List Symbol
  session : Session

namespace Normalization

def isInfiniteJson (n : Normalization) : Json :=
  match n.isInfinite with
  | none => .null
  | some b => .bool b

def fields (encode : Grammar → Json) (trace : Json) (n : Normalization) : List (String × Json) :=
  [("empty", .bool n.isEmpty), ("infinite", n.isInfiniteJson),
    ("cycle", .array (n.cycle.map fun v ↦ .string v.text)), ("trimmed", encode n.trimmed),
    ("cnf", encode n.grammar), ("text", .string n.grammar.text),
    ("trace", trace)]

end Normalization

/-- Brings the grammar on the table into Chomsky normal form. An empty language has the grammar
without rules. -/
def Session.normalize (s : Session) : Except Halt Normalization := do
  s.expect (s.grammar.check.mapError .grammar)
  let allocator := Allocator.new s.grammar.names Allocator.defaultLimit
  let (s, t) ← s.trim
  if t.isEmpty then
    let nothing : Grammar := ⟨t.grammar.start, .empty⟩
    return ⟨t.grammar, nothing, true, none, [], s.put nothing⟩
  let fresh := s.freshStart allocator
  let (s, _) ← s.eliminateEpsilon (.var fresh)
  let s ← s.eliminateUnits
  let (s, allocator) ← s.isolateTerminals (allocator.reserve [fresh])
  let s := (← s.cascade allocator []).session
  let problems := s.grammar.violations
  if !problems.isEmpty then throw (s.halt (.notNormal (problems.map (·.message))))
  let g := s.grammar
  let (s, cycle) := s.decideFiniteness
  return ⟨t.grammar, g, false, some (!cycle.isEmpty), cycle, s⟩

def Grammar.normalize (g : Grammar) : Except Fault Normalization :=
  (Session.ofGrammar g).normalize.mapError (·.fault)

end ChomskyNormalForm
