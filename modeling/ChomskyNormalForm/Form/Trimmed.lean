import ChomskyNormalForm.Analysis.Rounds
import ChomskyNormalForm.Analysis.Search
import ChomskyNormalForm.Trace.Session

namespace ChomskyNormalForm

structure Trimming where
  layers : List Grammar.ProductiveLayer
  /-- the grammar without the bodies that mention unproductive variables -/
  filtered : Grammar
  reachable : List Symbol
  grammar : Grammar

namespace Trimming

def productive (t : Trimming) : List Symbol := Grammar.layered t.layers

def retained (t : Trimming) : List Symbol := t.productive.filter (· ∈ t.reachable)

def isEmpty (t : Trimming) : Bool := t.grammar.start ∉ t.retained

end Trimming

def Grammar.productiveActions (layers : List ProductiveLayer) : List (Action × List Symbol) :=
  (layers.head?.getD []).map (fun (v, bs) ↦ (.productiveInit v bs, [v])) ++
  ((layers.tail.zipIdx 1).flatMap fun (layer, round) ↦
    layer.map fun (v, bs) ↦ (.productiveAdd round v bs, [v])) ++
  [(.productiveFixpoint layers.length, Symbol.sort (layered layers))]

def Session.findProductive (s : Session) : Except Halt (Session × List Symbol) := do
  let layers ← s.expect s.grammar.productiveLayers
  return (s.note (Grammar.productiveActions layers), Grammar.layered layers)

/-- Takes away the bodies with unproductive variables, and then the variables that are not
productive or can no longer be reached. -/
def Grammar.trimming (g : Grammar) : Except Fault Trimming := do
  let layers ← g.productiveLayers
  let productive := SymbolSet.ofList (layered layers)
  let filtered := g.filterBodies fun _ b ↦ b.isOver productive
  let reachable := filtered.reachable
  return ⟨layers, filtered, reachable, filtered.restrict fun v ↦ v ∈ productive && v ∈ reachable⟩

def Session.trim (s : Session) : Except Halt (Session × Trimming) := do
  let g := s.grammar
  let t ← s.expect g.trimming
  let s := s.note (Grammar.productiveActions t.layers)
  let productive := SymbolSet.ofList t.productive
  let removed := g.productions.filter fun p ↦ !p.body.isOver productive
  let s := if removed.isEmpty then s
    else s.commit t.filtered .filter (Symbol.sort (distinct (removed.map (·.head)))) [] removed
  let s := s.emit .reachable (Symbol.sort t.reachable) [] []
  let dropped := t.filtered.sortedHeads.filter (· ∉ t.retained)
  let s := if dropped.isEmpty then s
    else s.commit t.grammar .restrict dropped [] (dropped.flatMap t.filtered.productionsOf)
  return (s.emit (.verdict g.start t.isEmpty) (Symbol.sort t.retained) [] [], t)

end ChomskyNormalForm
