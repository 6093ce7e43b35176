import ChomskyNormalForm.Analysis.Search
import ChomskyNormalForm.Proofs.Grammar.Edits
import ChomskyNormalForm.Proofs.Language.Interpretation
import Mathlib.Logic.Relation
import Mathlib.Tactic.ByContra

namespace ChomskyNormalForm.Grammar

variable {g h : Grammar} {u v x : Symbol} {w : Word}

def Mentions (g : Grammar) (v u : Symbol) : Prop := ∃ b ∈ g.bodies v, u ∈ Body.vars b

/-- Some sentential form derived from `v` holds `u`. -/
def Reaches (g : Grammar) : Symbol → Symbol → Prop := Relation.ReflTransGen g.Mentions

def IsProductive (g : Grammar) (v : Symbol) : Prop := ∃ w, g.Derives v w

def IsUseful (g : Grammar) (v : Symbol) : Prop := g.Reaches g.start v ∧ g.IsProductive v

@[simp] theorem mem_mentions : u ∈ g.mentions v ↔ g.Mentions v u := by
  simp [mentions, Mentions]

theorem mem_referenced : u ∈ g.referenced ↔ ∃ v, g.Mentions v u := by
  simp only [referenced, Symbol.sort, mem_sortBy, mem_distinct, List.mem_flatMap,
    Rules.mem_allBodies, Mentions]
  constructor
  · intro h
    obtain ⟨b, ⟨v, hb⟩, hu⟩ := h
    exact ⟨v, b, hb, hu⟩
  · intro h
    obtain ⟨v, b, hb, hu⟩ := h
    exact ⟨b, ⟨v, hb⟩, hu⟩

theorem mem_dangling : u ∈ g.dangling ↔ (∃ v, g.Mentions v u) ∧ u ∉ g := by
  simp [dangling, mem_referenced]

theorem Mentions.isVar (h : g.Mentions v u) : u.isVar = true := by
  obtain ⟨b, -, hu⟩ := h
  exact (Body.mem_vars.1 hu).2

theorem Mentions.mem (h : g.Mentions v u) : v ∈ g := by
  obtain ⟨b, hb, -⟩ := h
  exact mem_of_mem_bodies hb

theorem Reaches.refl : g.Reaches v v := Relation.ReflTransGen.refl

theorem Reaches.tail (h : g.Reaches v u) (hu : g.Mentions u x) : g.Reaches v x :=
  Relation.ReflTransGen.tail h hu

theorem Reaches.trans (h : g.Reaches v u) (hu : g.Reaches u x) : g.Reaches v x :=
  Relation.ReflTransGen.trans h hu

theorem Mentions.reaches (h : g.Mentions v u) : g.Reaches v u := Reaches.refl.tail h

theorem Reaches.mono (hm : ∀ v u, g.Mentions v u → h.Reaches v u) (hr : g.Reaches v u) :
    h.Reaches v u := by
  induction hr with
  | refl => exact .refl
  | tail _ hu ih => exact ih.trans (hm _ _ hu)

end ChomskyNormalForm.Grammar
