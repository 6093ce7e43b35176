import ChomskyNormalForm.Analysis.Rounds
import ChomskyNormalForm.Analysis.Search
import ChomskyNormalForm.Trace.Session

namespace ChomskyNormalForm

def Body.substitutions (v : Symbol) (replacements : List Body) : Body → List Body
  | [] => [[]]
  | s :: b =>
    (if s = v then replacements else [[s]]).flatMap fun r ↦
      (substitutions v replacements b).map (r ++ ·)

namespace Grammar

/-- The bodies that `v` takes over from the other members of its unit closure. None with the start
in it goes to a variable other than the start. -/
def inherited (g : Grammar) (c : UnitClosure) (v : Symbol) : List Body :=
  ((c.members v).filter (· ≠ v)).flatMap fun w ↦
    (g.bodies w).filter fun b ↦ !b.isUnit && !b.isEpsilon && (v = g.start || g.start ∉ b)

def startReplacements (g : Grammar) : List Body :=
  (g.bodies g.start).filter fun b ↦ !b.isEpsilon && g.start ∉ b

end Grammar

namespace Session

def findUnitClosure (s : Session) : Except Halt (Session × UnitClosure) := do
  let closure ← s.expect s.grammar.unitClosure
  let actions := s.grammar.sortedHeads.filterMap fun v ↦
    let members := closure.members v
    if 1 < members.length then some (.closure v members, members) else none
  return (s.note actions, closure)

def copyBodies (c : UnitClosure) (s : Session) (v : Symbol) : Session :=
  match s.grammar.news v (s.grammar.inherited c v) with
  | [] => s
  | added => s.commit (s.grammar.extend v added) .copy [v] (added.map (⟨v, ·⟩)) []

def removeUnits (s : Session) (v : Symbol) : Session :=
  ((s.grammar.bodies v).filterMap Body.unit?).foldl (fun s w ↦
    s.commit (s.grammar.remove v [w]) .removeUnit [v, w] [] [⟨v, [w]⟩]) s

def expandStart (v : Symbol) (s : Session) (b : Body) : Except Halt Session :=
  let g := s.grammar
  match g.startReplacements with
  | [] => .error (s.halt (.inexpansible g.start v b))
  | replacements =>
    let rest := g.remove v b
    let added := rest.news v (b.substitutions g.start replacements)
    .ok (s.commit (rest.extend v added) .expandStart [v, g.start] (added.map (⟨v, ·⟩)) [⟨v, b⟩])

def protectStart (s : Session) : Except Halt Session :=
  (s.grammar.sortedHeads.filter (· ≠ s.grammar.start)).foldlM (fun s v ↦
    ((s.grammar.bodies v).filter (s.grammar.start ∈ ·)).foldlM (expandStart v) s) s

def dropUnproductive (s : Session) : Except Halt Session := do
  let g := s.grammar
  let productive ← s.expect g.productive
  let dropped := g.sortedHeads.filter fun v ↦ v ≠ g.start && v ∉ productive
  let p ← s.expect (g.restrict (· ∉ dropped)).pruned
  return if dropped.isEmpty && p.dropped.isEmpty && p.removed.isEmpty then s
    else s.commit p.grammar .dropUnproductive (dropped ++ p.dropped) []
      (dropped.flatMap g.productionsOf ++ p.removed)

def dropUnreachable (s : Session) : Session :=
  let g := s.grammar
  let reachable := g.reachable
  match g.sortedHeads.filter (· ∉ reachable) with
  | [] => s
  | dropped => s.commit (g.restrict (· ∉ dropped)) .dropUnreachable dropped []
      (dropped.flatMap g.productionsOf)

def eliminateUnits (s : Session) : Except Halt Session := do
  let (s, closure) ← s.findUnitClosure
  let s := s.grammar.sortedHeads.foldl (copyBodies closure) s
  let s := s.grammar.sortedHeads.foldl removeUnits s
  let s ← s.protectStart
  return (← s.dropUnproductive).dropUnreachable

end Session

end ChomskyNormalForm
