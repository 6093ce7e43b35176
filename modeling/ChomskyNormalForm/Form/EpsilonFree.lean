import ChomskyNormalForm.Allocator
import ChomskyNormalForm.Analysis.Rounds
import ChomskyNormalForm.Trace.Session

namespace ChomskyNormalForm

/-- The bodies with exactly `k` occurrences of variables in `nullable` deleted, those without the
first occurrence first. -/
def Body.dropping (nullable : List Symbol) : Nat → Body → List Body
  | 0, b => [b]
  | _ + 1, [] => []
  | k + 1, s :: b =>
    (if s.isVar && s ∈ nullable then dropping nullable k b else []) ++
      (dropping nullable (k + 1) b).map (s :: ·)

def Body.variants (nullable : List Symbol) (b : Body) : List Body :=
  let most := b.countP fun s ↦ s.isVar && s ∈ nullable
  distinct (((List.range most).flatMap fun k ↦ b.dropping nullable (k + 1)).filter (· ≠ []))

def Grammar.newVariants (g : Grammar) (nullable : List Symbol) (v : Symbol) : List Body :=
  g.news v (((g.bodies v).filter (!·.isEpsilon)).flatMap (Body.variants nullable))

namespace Session

def introduceStart (s : Session) (fresh : Symbol) : Session :=
  let old := s.grammar.start
  s.commit ((s.grammar.extend fresh [[old]]).withStart fresh) .introduceStart [fresh, old]
    [⟨fresh, [old]⟩] []

def addVariants (nullable : List Symbol) (s : Session) (v : Symbol) : Session :=
  match s.grammar.newVariants nullable v with
  | [] => s
  | added => s.commit (s.grammar.extend v added) .expand [v] (added.map (⟨v, ·⟩)) []

def dropEpsilons (s : Session) : Session :=
  let g := s.grammar
  match g.sortedHeads.filter fun v ↦ v ≠ g.start && Body.epsilon ∈ g.bodies v with
  | [] => s
  | vs => s.commit (g.filterBodies fun v b ↦ v = g.start || !b.isEpsilon) .removeEpsilon vs []
      (vs.map (⟨·, Body.epsilon⟩))

def pruneEmpty (s : Session) : Except Halt Session := do
  let p ← s.expect s.grammar.pruned
  return if p.dropped.isEmpty && p.removed.isEmpty then s
    else s.commit p.grammar .dropEmpty p.dropped [] p.removed

def findNullable (s : Session) : Except Halt (Session × List Symbol) := do
  let layers ← s.expect s.grammar.nullableLayers
  let nullable := Grammar.layered layers
  let actions := layers.flatten.map fun (v, b) ↦ (Action.nullableAdd v b, [v])
  return (s.note (actions ++ [(.nullableComplete, Symbol.sort nullable)]), nullable)

/-- Takes the empty word away from the grammar on the table, behind a new start that keeps it if the
old one derived it. Gives the nullable variables. -/
def eliminateEpsilon (s : Session) (fresh : Symbol) : Except Halt (Session × List Symbol) := do
  let old := s.grammar.start
  let (s, nullable) ← (s.introduceStart fresh).findNullable
  let s := if fresh ∈ nullable then
      s.commit (s.grammar.extend fresh [Body.epsilon]) (.startEpsilon old) [fresh]
        [⟨fresh, Body.epsilon⟩] []
    else s
  let s := s.grammar.sortedHeads.foldl (addVariants nullable) s
  let s ← s.dropEpsilons.pruneEmpty
  return (s, nullable)

def freshStart (s : Session) (allocator : Option Allocator) : String :=
  let used := match allocator with
    | some a => a.used
    | none => ∅
  ChomskyNormalForm.freshStart (used.insertMany s.grammar.names)

end Session

end ChomskyNormalForm
