import ChomskyNormalForm.Grammar.Rules

namespace ChomskyNormalForm

/-- A context-free grammar. The start and the left-hand sides of a legal one are variables; before
it is checked they may be any symbols. -/
structure Grammar where
  start : Symbol
  rules : Rules Symbol
  deriving DecidableEq

namespace Grammar

def heads (g : Grammar) : List Symbol := g.rules.keys

instance : Membership Symbol Grammar := ⟨fun g v ↦ v ∈ g.rules⟩

instance (v : Symbol) (g : Grammar) : Decidable (v ∈ g) := inferInstanceAs (Decidable (v ∈ g.rules))

theorem mem_iff {v : Symbol} {g : Grammar} : v ∈ g ↔ v ∈ g.rules := .rfl

def sortedHeads (g : Grammar) : List Symbol := Symbol.sort g.heads

def headSet (g : Grammar) : SymbolSet := .ofList g.heads

@[simp] theorem mem_headSet {v : Symbol} {g : Grammar} : v ∈ g.headSet ↔ v ∈ g :=
  SymbolSet.mem_ofList

def names (g : Grammar) : List String := g.heads.map (·.text)

def bodies (g : Grammar) (v : Symbol) : List Body := g.rules.bodies v

def sortedEntries (g : Grammar) : List (Symbol × List Body) :=
  sortBy (fun d e ↦ d.1.le e.1) g.rules.entries

def productionsOf (g : Grammar) (v : Symbol) : List Production := (g.bodies v).map (⟨v, ·⟩)

def productions (g : Grammar) : List Production := g.sortedHeads.flatMap g.productionsOf

def referenced (g : Grammar) : List Symbol :=
  Symbol.sort (distinct (g.rules.allBodies.flatMap Body.vars))

def dangling (g : Grammar) : List Symbol := g.referenced.filter (· ∉ g)

def terminals (g : Grammar) : List String :=
  sortBy (fun a b ↦ decide (a ≤ b))
    (distinct (g.rules.allBodies.flatMap fun b ↦ b.filterMap Symbol.terminal?))

/-- Both have the same start and the same set of bodies for every variable. -/
def agrees (g h : Grammar) : Bool := g.start == h.start && g.rules.agrees h.rules

theorem agrees_iff {g h : Grammar} : g.agrees h = true ↔
    g.start = h.start ∧ ∀ v, (v ∈ g ↔ v ∈ h) ∧ ∀ b, b ∈ g.bodies v ↔ b ∈ h.bodies v := by
  simp [agrees, Rules.agrees_iff, mem_iff, bodies]

def withStart (g : Grammar) (v : Symbol) : Grammar := ⟨v, g.rules⟩

def extend (g : Grammar) (v : Symbol) (bs : List Body) : Grammar := ⟨g.start, g.rules.extend v bs⟩

def news (g : Grammar) (v : Symbol) (bs : List Body) : List Body := g.rules.news v bs

def restrict (g : Grammar) (p : Symbol → Bool) : Grammar := ⟨g.start, g.rules.restrict p⟩

def filterBodies (g : Grammar) (p : Symbol → Body → Bool) : Grammar :=
  ⟨g.start, g.rules.filterBodies p⟩

def remove (g : Grammar) (v : Symbol) (b : Body) : Grammar := ⟨g.start, g.rules.remove v b⟩

def replace (g : Grammar) (v : Symbol) (old new : Body) : Grammar :=
  ⟨g.start, g.rules.replace v old new⟩

end Grammar

end ChomskyNormalForm
