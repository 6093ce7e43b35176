import ChomskyNormalForm.Analysis.Search
import ChomskyNormalForm.Form.EpsilonFree
import ChomskyNormalForm.Form.Helpers
import ChomskyNormalForm.Form.Trimmed
import ChomskyNormalForm.Form.UnitFree
import ChomskyNormalForm.Proofs.Analysis.UnitClosure
import ChomskyNormalForm.Proofs.Grammar.Reordered
import ChomskyNormalForm.Proofs.Settling

namespace ChomskyNormalForm

open Grammar

structure Pruning.Reordered (p q : Pruning) : Prop where
  grammar : p.grammar.Reordered q.grammar
  dropped_eq : p.dropped = q.dropped
  removed_eq : p.removed = q.removed

theorem Pruning.Reordered.round {p q : Pruning} (h : p.Reordered q) :
    p.round.1.Reordered q.round.1 ∧ p.round.2 = q.round.2 := by
  have he := h.grammar.emptied_eq
  have hrest := h.grammar.restrict (· ∉ q.grammar.emptied)
  have ho := hrest.orphaned_eq
  have hover := funext hrest.isOver_headSet
  simp only [Pruning.round, he]
  rw [ho, hover]
  exact ⟨⟨hrest.filterBodies _, by rw [h.dropped_eq], by rw [h.removed_eq]⟩, rfl⟩

structure Trimming.Reordered (t u : Trimming) : Prop where
  layers_eq : t.layers = u.layers
  filtered : t.filtered.Reordered u.filtered
  reachable_eq : t.reachable = u.reachable
  grammar : t.grammar.Reordered u.grammar

namespace Grammar.Reordered

variable {g h : Grammar} (hr : g.Reordered h)

include hr

theorem productiveLayers_eq : g.productiveLayers = h.productiveLayers := by
  rw [productiveLayers, productiveLayers, hr.sortedEntries_eq, hr.length_heads]

theorem productive_eq : g.productive = h.productive := by
  rw [productive, hr.productiveLayers_eq, productive]

theorem nullableLayers_eq : g.nullableLayers = h.nullableLayers := by
  rw [nullableLayers, nullableLayers, hr.sortedEntries_eq, hr.length_heads]

theorem reachable_eq : g.reachable = h.reachable := by
  have hm : g.mentions = h.mentions := by
    funext v
    rw [mentions, hr.bodies_eq, mentions]
  rw [reachable, reachableFrom, hm, hr.referenced_eq, hr.start_eq, reachable, reachableFrom]

theorem pruned : Matches Eq Pruning.Reordered g.pruned h.pruned := by
  rw [Grammar.pruned, Grammar.pruned, hr.length_heads]
  exact settled_matches _ _ (fun _ _ _ hp ↦ hp.round) ⟨hr, rfl, rfl⟩

theorem trimming : Matches Eq Trimming.Reordered g.trimming h.trimming := by
  refine (Matches.of_eq (fun _ ↦ rfl) hr.productiveLayers_eq).bind fun layers _ he ↦ ?_
  subst he
  have hf := hr.filterBodies fun _ b ↦ b.isOver (SymbolSet.ofList (layered layers))
  refine .ok ⟨rfl, hf, hf.reachable_eq, ?_⟩
  dsimp only
  rw [hf.reachable_eq]
  exact hf.restrict _

theorem unitTargets_eq : g.unitTargets = h.unitTargets := by
  funext v
  rw [unitTargets, unitTargets, hr.bodies_eq]
  refine List.filter_congr fun u _ ↦ ?_
  rw [decide_eq_decide, hr.mem_iff]

theorem unitChain_iff {v u : Symbol} : g.UnitChain v u ↔ h.UnitChain v u := by
  rw [Grammar.unitChain_iff, Grammar.unitChain_iff, UnitReaches, hr.unitTargets_eq,
    hr.mem_iff, UnitReaches]

theorem unitClosure :
    Matches Eq (fun c d : UnitClosure ↦ c.members = d.members) g.unitClosure h.unitClosure := by
  obtain ⟨k, c, hc, hg, hgr⟩ := g.exists_grown
  obtain ⟨l, d, hd, hh, hhr⟩ := h.exists_grown
  rw [hc, hd]
  refine .ok (funext fun v ↦ ?_)
  have hnodup := UnitClosure.nodup_members.1 (hg.nodup v)
  have hnodup' := UnitClosure.nodup_members.1 (hh.nodup v)
  refine Symbol.sort_congr ((List.perm_ext_iff_of_nodup hnodup hnodup').2 fun u ↦ ?_)
  rw [← UnitClosure.mem_members, ← UnitClosure.mem_members, hg.mem_iff_unitChain hgr,
    hh.mem_iff_unitChain hhr, hr.unitChain_iff]

theorem neighbours_eq : g.neighbours = h.neighbours := by
  funext v
  rw [neighbours, hr.bodies_eq, neighbours]
  refine Symbol.sort_distinct_congr fun u ↦ ?_
  rw [List.mem_filter, List.mem_filter, decide_eq_true_eq, decide_eq_true_eq, hr.mem_iff]

theorem searchCycle_eq : g.searchCycle = h.searchCycle := by
  have hgraph : g.dependencyGraph = h.dependencyGraph := by
    rw [dependencyGraph, hr.sortedHeads_eq, hr.neighbours_eq, dependencyGraph]
  rw [searchCycle, hr.neighbours_eq, hgraph, hr.length_heads, hr.sortedHeads_eq, searchCycle]

theorem newVariants_eq (nullable : List Symbol) (v : Symbol) :
    g.newVariants nullable v = h.newVariants nullable v := by
  rw [newVariants, hr.bodies_eq, hr.news_eq, newVariants]

theorem startReplacements_eq : g.startReplacements = h.startReplacements := by
  rw [startReplacements, hr.start_eq, hr.bodies_eq, startReplacements]

theorem inherited_eq {c d : UnitClosure} (hc : c.members = d.members) (v : Symbol) :
    g.inherited c v = h.inherited d v := by
  rw [inherited, hc, hr.start_eq, inherited]
  simp only [hr.bodies_eq]

theorem terminalHelpers_eq : g.terminalHelpers = h.terminalHelpers := by
  rw [terminalHelpers, hr.sortedHeads_eq, hr.start_eq, terminalHelpers]
  simp only [hr.bodies_eq]

end Grammar.Reordered

end ChomskyNormalForm
