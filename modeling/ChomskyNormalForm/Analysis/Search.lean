import ChomskyNormalForm.Grammar.Basic

namespace ChomskyNormalForm

def explore {α : Type} [Ord α] [DecidableEq α] (next : α → List α) : Nat → List α → List α → List α
  | 0, seen, _ => seen
  | _ + 1, seen, [] => seen
  | fuel + 1, seen, a :: queue =>
    let found := (distinct (next a)).filter (· ∉ seen)
    explore next fuel (seen ++ found) (queue ++ found)

namespace Grammar

def mentions (g : Grammar) (v : Symbol) : List Symbol := (g.bodies v).flatMap Body.vars

/-- The variables that a search along bodies from `v` comes to, `v` and variables without an entry
included. Each of them leaves the queue once. -/
def reachableFrom (g : Grammar) (v : Symbol) : List Symbol :=
  explore g.mentions (g.referenced.length + 1) [v] [v]

def reachable (g : Grammar) : List Symbol := g.reachableFrom g.start

end Grammar

inductive SearchStep where
  | start (root : Symbol)
  | visit (path : List Symbol)
  | explore (source target : Symbol)
  | backtrack (v : Symbol)
  | found (cycle : List Symbol)
  deriving DecidableEq

/-- The state of a depth-first search for a cycle. One stack stands for the present path, the set of
its variables and an iterator over the neighbours of each: it holds the path, its end first, each
variable with the neighbours still to look at. -/
structure CycleSearch where
  roots : List Symbol
  visited : List Symbol
  stack : List (Symbol × List Symbol)
  steps : Array SearchStep
  cycle : List Symbol

namespace CycleSearch

variable (next : Symbol → List Symbol)

def path (s : CycleSearch) : List Symbol := (s.stack.map Prod.fst).reverse

def enter (v : Symbol) (s : CycleSearch) : CycleSearch :=
  let s := { s with visited := v :: s.visited, stack := (v, next v) :: s.stack }
  { s with steps := s.steps.push (.visit s.path) }

def move (s : CycleSearch) : Option CycleSearch :=
  if s.cycle ≠ [] then none
  else match s.stack with
    | [] => match s.roots with
      | [] => none
      | root :: roots =>
        let s := { s with roots }
        if root ∈ s.visited then some s
        else some (enter next root { s with steps := s.steps.push (.start root) })
    | (v, []) :: stack => some { s with stack, steps := s.steps.push (.backtrack v) }
    | (v, w :: ws) :: stack =>
      if w ∈ s.path then
        let cycle := s.path.dropWhile (· ≠ w) ++ [w]
        some { s with cycle, steps := s.steps.push (.found cycle) }
      else
        let s := { s with stack := (v, ws) :: stack }
        if w ∈ s.visited then some s
        else some (enter next w { s with steps := s.steps.push (.explore v w) })

def run : Nat → CycleSearch → CycleSearch
  | 0, s => s
  | fuel + 1, s =>
    match move next s with
    | none => s
    | some s => run fuel s

end CycleSearch

namespace Grammar

def neighbours (g : Grammar) (v : Symbol) : List Symbol :=
  Symbol.sort (distinct (((g.bodies v).flatMap Body.vars).filter (· ∈ g)))

def dependencyGraph (g : Grammar) : List (Symbol × List Symbol) :=
  g.sortedHeads.map fun v ↦ (v, g.neighbours v)

/-- The search for a cycle of the dependency graph from each variable in turn. Every root, every
edge and every variable of the stack costs one move. -/
def searchCycle (g : Grammar) : CycleSearch :=
  let edges := (g.dependencyGraph.flatMap Prod.snd).length
  CycleSearch.run g.neighbours (2 * g.heads.length + edges + 1) ⟨g.sortedHeads, [], [], #[], []⟩

end Grammar

end ChomskyNormalForm
