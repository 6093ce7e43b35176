import ChomskyNormalForm.Analysis.Rounds
import ChomskyNormalForm.Grammar.Legal
import ChomskyNormalForm.Grammar.Notation
import ChomskyNormalForm.Proofs.Grammar.Legal
import ChomskyNormalForm.Proofs.Listing
import Mathlib.Data.List.Nodup

namespace ChomskyNormalForm

namespace Grammar

/-- Both have the same start, the same variables, and for each of them the same bodies in the same
order. The variables may have come in different orders. -/
structure Reordered (g h : Grammar) : Prop where
  start_eq : g.start = h.start
  mem_iff : ∀ v, v ∈ g ↔ v ∈ h
  bodies_eq : ∀ v, g.bodies v = h.bodies v

variable {g h : Grammar} {p : Symbol → Bool}

theorem nodup_entries (g : Grammar) : g.rules.entries.Nodup :=
  List.Nodup.of_map _ g.rules.keys_nodup

theorem filter_entries (g : Grammar) (k : Symbol) :
    (g.rules.entries.filter fun e ↦ e.1 = k) = if k ∈ g then [(k, g.bodies k)] else [] := by
  split
  · rename_i hk
    refine List.perm_singleton.1
      ((List.perm_ext_iff_of_nodup (g.nodup_entries.filter _) (by simp)).2 fun e ↦ ?_)
    rw [List.mem_filter, decide_eq_true_eq, List.mem_singleton]
    constructor
    · rintro ⟨he, rfl⟩
      have hb : g.bodies e.1 = e.2 := Rules.bodies_of_mem_entries he
      rw [hb]
    · rintro rfl
      exact ⟨Rules.mem_entries_of_mem hk, rfl⟩
  · rename_i hk
    refine List.filter_eq_nil_iff.2 fun e he hek ↦ hk ?_
    rw [← of_decide_eq_true hek]
    exact List.mem_map_of_mem he

theorem reordered_of_perm (hs : g.start = h.start) (hp : g.rules.entries.Perm h.rules.entries) :
    g.Reordered h := by
  have hm : ∀ v, v ∈ g ↔ v ∈ h := fun v ↦ (hp.map Prod.fst).mem_iff
  refine ⟨hs, hm, fun v ↦ ?_⟩
  by_cases hv : v ∈ g
  · exact (Rules.bodies_of_mem_entries (hp.subset (Rules.mem_entries_of_mem hv))).symm
  · have hg : g.bodies v = [] := Rules.bodies_of_not_mem hv
    have hh : h.bodies v = [] := Rules.bodies_of_not_mem fun hvh ↦ hv ((hm v).2 hvh)
    rw [hg, hh]

namespace Reordered

variable (hr : g.Reordered h)

include hr

theorem isLegal (hg : g.IsLegal) : h.IsLegal where
  start_mem := hr.start_eq ▸ (hr.mem_iff _).1 hg.start_mem
  head v hv := hg.head v ((hr.mem_iff v).2 hv)
  body v b hb := hg.body v b (hr.bodies_eq v ▸ hb)
  closed v u := by
    rintro ⟨b, hb, hu⟩
    exact (hr.mem_iff u).1 (hg.closed v u ⟨b, hr.bodies_eq v ▸ hb, hu⟩)

theorem filter_entries_eq (k : Symbol) :
    (g.rules.entries.filter fun e ↦ e.1 = k) = h.rules.entries.filter fun e ↦ e.1 = k := by
  rw [filter_entries, filter_entries, hr.bodies_eq]
  simp only [hr.mem_iff]

theorem heads_perm : g.heads.Perm h.heads :=
  (List.perm_ext_iff_of_nodup g.nodup_heads h.nodup_heads).2 hr.mem_iff

theorem entries_perm : g.rules.entries.Perm h.rules.entries := by
  refine (List.perm_ext_iff_of_nodup g.nodup_entries h.nodup_entries).2 fun e ↦ ?_
  have hk := congrArg (e ∈ ·) (hr.filter_entries_eq e.1)
  simpa using hk

theorem length_heads : g.heads.length = h.heads.length := hr.heads_perm.length_eq

theorem sortedHeads_eq : g.sortedHeads = h.sortedHeads := Symbol.sort_congr hr.heads_perm

theorem sortedEntries_eq : g.sortedEntries = h.sortedEntries := sortBy_congr hr.filter_entries_eq

theorem productionsOf_eq (v : Symbol) : g.productionsOf v = h.productionsOf v := by
  rw [productionsOf, hr.bodies_eq, productionsOf]

theorem productions_eq : g.productions = h.productions := by
  rw [productions, hr.sortedHeads_eq, funext hr.productionsOf_eq, productions]

theorem news_eq (v : Symbol) (bs : List Body) : g.news v bs = h.news v bs := by
  have hb : g.rules.bodies v = h.rules.bodies v := hr.bodies_eq v
  rw [news, Rules.news, hb, news, Rules.news]

theorem referenced_eq : g.referenced = h.referenced := by
  refine Symbol.sort_distinct_congr fun s ↦ ?_
  rw [List.mem_flatMap, List.mem_flatMap]
  refine exists_congr fun b ↦ and_congr_left fun _ ↦ ?_
  rw [Rules.mem_allBodies, Rules.mem_allBodies]
  refine exists_congr fun k ↦ ?_
  have hb : g.rules.bodies k = h.rules.bodies k := hr.bodies_eq k
  rw [hb]

theorem dangling_eq : g.dangling = h.dangling := by
  rw [dangling, dangling, hr.referenced_eq]
  refine List.filter_congr fun v _ ↦ ?_
  rw [decide_eq_decide, hr.mem_iff]

theorem violations_eq : g.violations = h.violations := by
  rw [violations, hr.productions_eq, hr.start_eq, hr.dangling_eq, violations]

theorem emptied_eq : g.emptied = h.emptied := by
  rw [emptied, hr.start_eq]
  exact Symbol.sort_congr ((hr.entries_perm.filter _).map _)

theorem isOver_headSet (b : Body) : b.isOver g.headSet = b.isOver h.headSet := by
  unfold Body.isOver
  refine congrArg (Body.vars b).all (funext fun v ↦ ?_)
  rw [decide_eq_decide, mem_headSet, mem_headSet, hr.mem_iff]

theorem orphaned_eq : g.orphaned g.headSet = h.orphaned h.headSet := by
  -- a stable sort by heads is settled by what it sees of each head, and that comes from one entry
  have hfilter : ∀ (held : SymbolSet) (es : List (Symbol × List Body)) (k : Symbol),
      ((es.flatMap fun e ↦ (e.2.filter (!·.isOver held)).map (⟨e.1, ·⟩)).filter
        fun q : Production ↦ q.head = k) =
      (es.filter fun e ↦ e.1 = k).flatMap fun e ↦ (e.2.filter (!·.isOver held)).map (⟨e.1, ·⟩) := by
    intro held es k
    induction es with
    | nil => rfl
    | cons e es ih =>
      rw [List.flatMap_cons, List.filter_append, ih, List.filter_cons]
      split
      · rename_i he
        rw [List.flatMap_cons, List.filter_eq_self.2]
        intro q hq
        obtain ⟨b, -, rfl⟩ := List.mem_map.1 hq
        exact he
      · rename_i he
        rw [List.filter_eq_nil_iff.2, List.nil_append]
        intro q hq
        obtain ⟨b, -, rfl⟩ := List.mem_map.1 hq
        exact he
  have hheld : (fun b : Body ↦ !b.isOver g.headSet) = fun b : Body ↦ !b.isOver h.headSet :=
    funext fun b ↦ congrArg not (hr.isOver_headSet b)
  refine sortBy_congr fun k ↦ ?_
  rw [hfilter, hfilter, hr.filter_entries_eq, hheld]

theorem withStart (v : Symbol) : (g.withStart v).Reordered (h.withStart v) :=
  ⟨rfl, hr.mem_iff, hr.bodies_eq⟩

theorem extend (v : Symbol) (bs : List Body) : (g.extend v bs).Reordered (h.extend v bs) where
  start_eq := hr.start_eq
  mem_iff u := by rw [mem_extend, mem_extend, hr.mem_iff]
  bodies_eq u := by
    have hb : ∀ u, g.rules.bodies u = h.rules.bodies u := hr.bodies_eq
    have hn : g.rules.news v bs = h.rules.news v bs := hr.news_eq v bs
    simp only [bodies, Grammar.extend, Rules.bodies_extend, hb, hn]

theorem restrict (p : Symbol → Bool) : (g.restrict p).Reordered (h.restrict p) where
  start_eq := hr.start_eq
  mem_iff u := by rw [mem_restrict, mem_restrict, hr.mem_iff]
  bodies_eq u := by
    have hb : g.rules.bodies u = h.rules.bodies u := hr.bodies_eq u
    simp only [bodies, Grammar.restrict, Rules.bodies_restrict, hb]

theorem filterBodies (f : Symbol → Body → Bool) :
    (g.filterBodies f).Reordered (h.filterBodies f) where
  start_eq := hr.start_eq
  mem_iff u := by rw [mem_filterBodies, mem_filterBodies, hr.mem_iff]
  bodies_eq u := by
    have hb : g.rules.bodies u = h.rules.bodies u := hr.bodies_eq u
    simp only [bodies, Grammar.filterBodies, Rules.bodies_filterBodies, hb]

theorem remove (v : Symbol) (b : Body) : (g.remove v b).Reordered (h.remove v b) where
  start_eq := hr.start_eq
  mem_iff u := by rw [mem_remove, mem_remove, hr.mem_iff]
  bodies_eq u := by
    have hb : ∀ u, g.rules.bodies u = h.rules.bodies u := hr.bodies_eq
    simp only [bodies, Grammar.remove, Rules.bodies_remove, hb]

theorem replace (v : Symbol) (b c : Body) : (g.replace v b c).Reordered (h.replace v b c) where
  start_eq := hr.start_eq
  mem_iff u := by rw [mem_replace, mem_replace, hr.mem_iff]
  bodies_eq u := by
    have hb : ∀ u, g.rules.bodies u = h.rules.bodies u := hr.bodies_eq
    simp only [bodies, Grammar.replace, Rules.replace, Rules.bodies_put, hb]

theorem rows_eq : g.rows = h.rows := by
  have horder : g.displayOrder = h.displayOrder := by
    simp only [displayOrder, hr.start_eq, hr.mem_iff, hr.sortedHeads_eq]
  rw [rows, rowsIn, horder, rows, rowsIn]
  refine List.map_congr_left fun v _ ↦ ?_
  rw [hr.bodies_eq]

theorem text_eq : g.text = h.text := by rw [text, hr.rows_eq, text]

theorem toJson_eq : g.toJson = h.toJson := by rw [toJson, hr.rows_eq, hr.start_eq, toJson]

end Reordered

end Grammar

end ChomskyNormalForm
