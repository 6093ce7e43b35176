import ChomskyNormalForm.Grammar.Basic
import ChomskyNormalForm.Language.Words

namespace ChomskyNormalForm.Grammar

variable {g : Grammar} {name : String} {b : Body} {w : Word}

/-- A body yields the words in which each terminal stands for itself and each variable for a word
that one of its own bodies yields. -/
inductive Yields (g : Grammar) : Body → Word → Prop
  | nil : Yields g [] []
  | epsilon {b : Body} {w : Word} : Yields g b w → Yields g (.epsilon :: b) w
  | terminal (a : String) {b : Body} {w : Word} :
      Yields g b w → Yields g (.terminal a :: b) (a.toList ++ w)
  | var {name : String} {c b : Body} {u w : Word} :
      c ∈ g.bodies (.var name) → Yields g c u → Yields g b w → Yields g (.var name :: b) (u ++ w)

def Derives (g : Grammar) (v : Symbol) (w : Word) : Prop := ∃ b ∈ g.bodies v, g.Yields b w

def Generates (g : Grammar) (w : Word) : Prop := g.Derives g.start w

@[simp] theorem yields_nil : g.Yields [] w ↔ w = [] := by
  constructor
  · intro h
    cases h
    rfl
  · intro hx
    subst hx
    exact .nil

@[simp] theorem yields_epsilon_cons : g.Yields (.epsilon :: b) w ↔ g.Yields b w := by
  constructor
  · intro h
    cases h with
    | epsilon h => exact h
  · exact .epsilon

theorem yields_terminal_cons {a : String} :
    g.Yields (.terminal a :: b) w ↔ ∃ u, w = a.toList ++ u ∧ g.Yields b u := by
  constructor
  · intro h
    cases h with
    | terminal a h => exact ⟨_, rfl, h⟩
  · intro hx
    obtain ⟨u, rfl, h⟩ := hx
    exact .terminal a h

theorem yields_var_cons :
    g.Yields (.var name :: b) w ↔ ∃ u x, w = u ++ x ∧ g.Derives (.var name) u ∧ g.Yields b x := by
  constructor
  · intro h
    cases h with
    | var hc hu hx => exact ⟨_, _, rfl, ⟨_, hc, hu⟩, hx⟩
  · intro hy
    obtain ⟨u, x, rfl, ⟨c, hc, hu⟩, hx⟩ := hy
    exact .var hc hu hx

@[simp] theorem not_yields_foreign_cons {s : String} : ¬g.Yields (.foreign s :: b) w := nofun

end ChomskyNormalForm.Grammar
