import ChomskyNormalForm.Fault
import ChomskyNormalForm.Grammar.Basic

namespace ChomskyNormalForm

section

variable {σ : Type}

/-- Repeats a round, told its number, until one reports that nothing changed. After `limit` rounds
that changed something there is no result, only the state that was reached. -/
def settle (round : Nat → σ → σ × Bool) : Nat → Nat → σ → Except σ σ
  | 0, _, s => .error s
  | limit + 1, number, s =>
    match round number s with
    | (s, true) => settle round limit (number + 1) s
    | (s, false) => .ok s

def settled (what : String) (limit : Nat) (round : Nat → σ → σ × Bool) (s : σ) : Except Fault σ :=
  (settle round limit 1 s).mapError fun _ ↦ .divergence what limit

def roundNumbers (limit : Int) (stop : Option Int) : Except (List Nat) (List Nat) :=
  match settle (fun n seen ↦ (n :: seen, stop ≠ some (n : Int))) limit.toNat 1 [] with
  | .ok seen => .ok seen.reverse
  | .error seen => .error seen.reverse

end

namespace Grammar

abbrev ProductiveLayer := List (Symbol × List Body)

def productiveLayer (entries : List (Symbol × List Body)) (known : SymbolSet) : ProductiveLayer :=
  entries.filterMap fun (v, bodies) ↦
    if v ∈ known then none
    else match bodies.filter (Body.isOver known) with
      | [] => none
      | bs => some (v, bs)

def layered {α : Type} (layers : List (List (Symbol × α))) : List Symbol :=
  layers.flatten.map Prod.fst

/-- The productive variables in layers. The first layer has bodies without variables, each further
one bodies over the layers before it, by name; a layer does not see what it finds itself. -/
def productiveLayers (g : Grammar) : Except Fault (List ProductiveLayer) :=
  let entries := g.sortedEntries
  settled "productive set" (g.heads.length + 1)
    (fun _ layers ↦ match productiveLayer entries (.ofList (layered layers)) with
      | [] => (layers, false)
      | layer => (layers ++ [layer], true))
    [productiveLayer entries ∅]

def productive (g : Grammar) : Except Fault (List Symbol) := g.productiveLayers.map layered

end Grammar

def Body.isNullable (known : SymbolSet) (b : Body) : Bool :=
  b.all fun s ↦ s.isVar && s ∈ known

namespace Grammar

abbrev NullableLayer := List (Symbol × Body)

def epsilonLayer (entries : List (Symbol × List Body)) : NullableLayer :=
  (entries.filter (Body.epsilon ∈ ·.2)).map fun e ↦ (e.1, Body.epsilon)

def nullableLayer (entries : List (Symbol × List Body)) (known : SymbolSet) : NullableLayer :=
  entries.filterMap fun (v, bodies) ↦
    if v ∈ known then none
    else (bodies.find? fun b ↦ !b.isEpsilon && b.isNullable known).map (v, ·)

def nullableLayers (g : Grammar) : Except Fault (List NullableLayer) :=
  let entries := g.sortedEntries
  settled "nullable set" (g.heads.length + 1)
    (fun _ layers ↦ match nullableLayer entries (.ofList (layered layers)) with
      | [] => (layers, false)
      | layer => (layers ++ [layer], true))
    [epsilonLayer entries]

def nullable (g : Grammar) : Except Fault (List Symbol) := g.nullableLayers.map layered

end Grammar

structure Pruning where
  grammar : Grammar
  dropped : List Symbol
  removed : List Production

namespace Grammar

def emptied (g : Grammar) : List Symbol :=
  Symbol.sort <| (g.rules.entries.filter fun e ↦ e.1 ≠ g.start && e.2.isEmpty).map Prod.fst

def orphaned (g : Grammar) (held : SymbolSet) : List Production :=
  sortBy (fun p q ↦ p.head.le q.head) <| g.rules.entries.flatMap fun e ↦
    (e.2.filter (!·.isOver held)).map (⟨e.1, ·⟩)

end Grammar

def Pruning.round (p : Pruning) : Pruning × Bool :=
  let emptied := p.grammar.emptied
  let rest := p.grammar.restrict (· ∉ emptied)
  let held := rest.headSet
  let orphaned := rest.orphaned held
  (⟨rest.filterBodies fun _ b ↦ b.isOver held, p.dropped ++ emptied, p.removed ++ orphaned⟩,
    !(emptied.isEmpty && orphaned.isEmpty))

/-- Takes away variables without bodies, the start apart, and bodies with variables that are gone,
until nothing of the kind is left. -/
def Grammar.pruned (g : Grammar) : Except Fault Pruning :=
  settled "dead variable set" (g.heads.length + 2) (fun _ p ↦ p.round) ⟨g, [], []⟩

/-- For each variable those that it reaches by unit productions, itself included. -/
abbrev UnitClosure := List (Symbol × List Symbol)

namespace UnitClosure

def members (c : UnitClosure) (v : Symbol) : List Symbol :=
  Symbol.sort ((c.lookup v).getD [])

def insert (c : UnitClosure) (v u : Symbol) : UnitClosure :=
  c.map fun e ↦ (e.1, if e.1 = v then e.2 ++ [u] else e.2)

end UnitClosure

namespace Grammar

def unitTargets (g : Grammar) (v : Symbol) : List Symbol :=
  ((g.bodies v).filterMap Body.unit?).filter (· ∈ g)

end Grammar

structure UnitGrowth where
  closure : UnitClosure
  changed : Bool

namespace UnitGrowth

def add (v : Symbol) (s : UnitGrowth) (u : Symbol) : UnitGrowth :=
  if u ∈ s.closure.members v then s else ⟨s.closure.insert v u, true⟩

/-- Adds to the members of `v` what their unit productions lead to. What comes in here is not
followed before the next round. -/
def grow (g : Grammar) (s : UnitGrowth) (v : Symbol) : UnitGrowth :=
  ((s.closure.members v).flatMap g.unitTargets).foldl (add v) s

end UnitGrowth

def UnitClosure.round (g : Grammar) (c : UnitClosure) : UnitClosure × Bool :=
  let s := g.sortedHeads.foldl (UnitGrowth.grow g) ⟨c, false⟩
  (s.closure, s.changed)

def Grammar.unitClosure (g : Grammar) : Except Fault UnitClosure :=
  settled "unit closure" (g.heads.length + 1) (fun _ c ↦ c.round g) (g.heads.map fun v ↦ (v, [v]))

end ChomskyNormalForm
