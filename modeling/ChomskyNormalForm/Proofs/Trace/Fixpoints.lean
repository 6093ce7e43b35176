import ChomskyNormalForm.Proofs.Analysis.Reachable
import ChomskyNormalForm.Proofs.Analysis.UnitClosure
import ChomskyNormalForm.Proofs.Trace.Editor
import Mathlib.Order.Bounds.Defs

namespace ChomskyNormalForm

section

variable {bodies : Symbol → List Body} {bound found : List Symbol} {root u v : Symbol}

def IsClosedAlong (bodies : Symbol → List Body) (A : Set Symbol) : Prop :=
  ∀ v ∈ A, ∀ b ∈ bodies v, ∀ u ∈ b, u.isVar = true → u ∈ A

/-- A search along bodies from `root` comes to its end with `found`, which is the least set with
`root` in it that is closed along the bodies. -/
structure IsReach (bodies : Symbol → List Body) (root : Symbol) (found : List Symbol) : Prop where
  ends : Searches (fun v ↦ (bodies v).flatMap Body.vars) ([root], [root]) found
  nodup : found.Nodup
  least : IsLeast {A : Set Symbol | root ∈ A ∧ IsClosedAlong bodies A} {u | u ∈ found}

theorem mem_flatMap_vars : u ∈ (bodies v).flatMap Body.vars ↔ ∃ b ∈ bodies v, u ∈ b ∧
    u.isVar = true := by
  simp only [List.mem_flatMap, Body.mem_vars]

theorem isReach_explore (hb : ∀ v, ∀ b ∈ bodies v, ∀ u ∈ Body.vars b, u ∈ bound) (root : Symbol) :
    IsReach bodies root
      (explore (fun v ↦ (bodies v).flatMap Body.vars) (bound.length + 1) [root] [root]) := by
  have hbound : ∀ v, ∀ u ∈ (bodies v).flatMap Body.vars, u ∈ bound := by
    intro v u hu
    obtain ⟨b, hm, hu⟩ := List.mem_flatMap.1 hu
    exact hb v b hm u hu
  obtain ⟨rest, h, hs⟩ := exists_exploring hbound root
  refine ⟨hs, h.nodup, ⟨h.root_mem, fun v hv b hm u hu hvar ↦ ?_⟩, fun A hA u hu ↦ ?_⟩
  · exact h.closed v hv List.not_mem_nil u (mem_flatMap_vars.2 ⟨b, hm, hu, hvar⟩)
  · -- along the path from the root to `u`, all of which is in `A`
    induction h.reached u hu with
    | refl => exact hA.1
    | tail hr hx ih =>
      obtain ⟨b, hm, hu, hvar⟩ := mem_flatMap_vars.1 hx
      exact hA.2 _ (ih (h.mem_iff.2 hr)) b hm _ hu hvar

theorem Grammar.isReach_reachableFrom (g : Grammar) (v : Symbol) :
    IsReach g.bodies v (g.reachableFrom v) :=
  isReach_explore (fun x b hb _ hu ↦ mem_referenced.2 ⟨x, b, hb, hu⟩) v

theorem ProductionTable.isReach_reachableFrom (t : ProductionTable) (v : Symbol) :
    IsReach t.bodies v (t.reachableFrom v) := by
  refine isReach_explore (fun x b hb u hu ↦ ?_) v
  rw [referenced, mem_distinct, List.mem_flatMap]
  exact ⟨(x, t.bodies x), mem_rules_of_mem_bodies hb, List.mem_flatMap.2 ⟨b, hb, hu⟩⟩

/-- The search for what is reachable is exact from every symbol, with an entry or without, in a
grammar and in a table in whatever state, and where no symbol is given it begins with the start. -/
theorem reachable_is_reach (g : Grammar) (t : ProductionTable) :
    (∀ v, IsReach g.bodies v (g.reachableFrom v)) ∧ IsReach g.bodies g.start g.reachable ∧
      (∀ v, IsReach t.bodies v (t.reachableFrom v)) ∧ IsReach t.bodies t.start t.reachable :=
  ⟨g.isReach_reachableFrom, g.isReach_reachableFrom g.start, t.isReach_reachableFrom,
    t.isReach_reachableFrom t.start⟩

end

open Grammar

theorem Grammar.exists_settled_unitClosure (g : Grammar) :
    ∃ c, g.unitClosure = .ok c ∧ c.round g = (c, false) := by
  obtain ⟨_, c, hc, h, hr⟩ := g.exists_grown
  exact ⟨c, hc, Prod.ext (UnitClosure.round_eq_self h.heads_eq hr) hr⟩

theorem Grammar.exists_settled_pruned (g : Grammar) :
    ∃ q, g.pruned = .ok q ∧ q.round = (q, false) := by
  obtain ⟨q, hq, hpruned, -⟩ := g.exists_pruned
  exact ⟨q, hq, hpruned.round_eq_self⟩

theorem ProductionTable.Holds.exists_settled_prune {t : ProductionTable} {g : Grammar}
    (hg : t.Holds g) :
    ∃ p, t.prune = .ok p ∧ p.round.2 = false := by
  obtain ⟨p, q, c, hp, -, hpruned, htracks⟩ := hg.prune
  refine ⟨p, hp, ?_⟩
  rw [htracks.round.2, hpruned.round_eq_self]

/-- For any grammar, and for a table after whatever was done to it, no computation in rounds comes
to its limit, and what it ends with would not change in a further round. -/
theorem rounds_suffice (g : Grammar) (o : Origin) (ops : List TableOp) :
    (∃ layers, g.productiveLayers = .ok layers ∧
      productiveLayer g.sortedEntries (.ofList (layered layers)) = []) ∧
    (∃ layers, g.nullableLayers = .ok layers ∧
      nullableLayer g.sortedEntries (.ofList (layered layers)) = []) ∧
    (∃ c, g.unitClosure = .ok c ∧ c.round g = (c, false)) ∧
    (∃ q, g.pruned = .ok q ∧ q.round = (q, false)) ∧
    ∃ log e, o.editor.run ops = .ok (log, e) ∧ ∃ p, e.table.prune = .ok p ∧ p.round.2 = false := by
  obtain ⟨layers, hlayers, hlast, -⟩ := exists_stack_productiveLayers g
  obtain ⟨layers', hlayers', hlast', -⟩ := exists_stack_nullableLayers g
  obtain ⟨log, e, he, hk⟩ := (Editor.Keeps.origin o).resume ops
  obtain ⟨_, ht⟩ := hk.holds
  exact ⟨⟨layers, hlayers, hlast⟩, ⟨layers', hlayers', hlast'⟩, g.exists_settled_unitClosure,
    g.exists_settled_pruned, log, e, he, ht.exists_settled_prune⟩

/-- One round more than there are variables would be too few here: the first takes the body, the
second the variable, and a third has to see that nothing is left. -/
example : (settled "dead variable set" 2 (fun _ q ↦ Pruning.round q)
    ⟨⟨.var "S", .ofEntries [(.var "A", [[.var "B"]])]⟩, [], []⟩) =
    .error (.divergence "dead variable set" 2) := by
  rfl

end ChomskyNormalForm
