import ChomskyNormalForm.Proofs.Trace.Editor
import Mathlib.Logic.Relation

namespace ChomskyNormalForm

/-- Done to a table that holds `g`, the operation changes that to `h`. -/
inductive TableOp.Changes : TableOp → Grammar → Grammar → Prop
  | setStart (g : Grammar) (v : Symbol) : Changes (.setStart v) g (g.withStart v)
  | ensure {g : Grammar} {v : Symbol} (hv : v ∉ g) : Changes (.ensure v) g (g.extend v [])
  | add {g : Grammar} {v : Symbol} {b : Body} (hb : b ∉ g.bodies v) :
      Changes (.add v b) g (g.extend v [b])
  | remove {g : Grammar} {v : Symbol} {b : Body} (hb : b ∈ g.bodies v) :
      Changes (.remove v b) g (g.remove v b)
  | replace {g : Grammar} {v : Symbol} {old new : Body} (hold : old ∈ g.bodies v)
      (hne : old ≠ new) :
      Changes (.replace v old new) g (g.replace v old new)
  | drop (g : Grammar) (v : Symbol) : Changes (.drop v) g (g.restrict (· ≠ v))
  | prune {g : Grammar} {p : Pruning} (hp : g.pruned = .ok p) (hne : p.grammar ≠ g) :
      Changes .prune g p.grammar

def Grammar.Becomes : Grammar → Grammar → Prop :=
  Relation.ReflTransGen fun g h ↦ ∃ op : TableOp, op.Changes g h

namespace Grammar

variable {g h : Grammar} {v : Symbol} {b : Body} {bs : List Body} {op : TableOp}

theorem Becomes.of_changes (hop : op.Changes g h) : g.Becomes h := .single ⟨op, hop⟩

theorem becomes_extend (g : Grammar) (v : Symbol) (bs : List Body) : g.Becomes (g.extend v bs) := by
  induction bs generalizing g with
  | nil =>
    by_cases hv : v ∈ g
    · have hsame : g.extend v [] = g :=
        congrArg (Grammar.mk g.start) (Rules.extend_eq_self hv (List.nil_subset _))
      rw [hsame]
      exact .refl
    · exact .of_changes (.ensure hv)
  | cons b bs ih =>
    rw [extend_cons]
    by_cases hb : b ∈ g.bodies v
    · rw [extend_of_mem hb]
      exact ih g
    · exact (Becomes.of_changes (.add hb)).trans (ih _)

theorem becomes_pruned {p : Pruning} (hp : g.pruned = .ok p) : g.Becomes p.grammar := by
  by_cases hne : p.grammar = g
  · rw [hne]
    exact .refl
  · exact .of_changes (.prune hp hne)

theorem becomes_filterBodies (g : Grammar) (f : Symbol → Body → Bool) :
    g.Becomes (g.filterBodies f) := by
  have hlist :
      ∀ (ps : List Production) (g : Grammar), g.Becomes (g.filterBodies fun v b ↦ ⟨v, b⟩ ∉ ps) := by
    intro ps
    induction ps with
    | nil =>
      intro g
      rw [filterBodies_eq_self fun v b _ ↦ decide_eq_true List.not_mem_nil]
      exact .refl
    | cons p ps ih =>
      intro g
      have hp : g.Becomes (g.remove p.head p.body) := by
        by_cases hb : p.body ∈ g.bodies p.head
        · exact .of_changes (.remove hb)
        · have hsame : g.remove p.head p.body = g := by
            rw [remove_eq_filterBodies]
            refine filterBodies_eq_self fun v b hm ↦ decide_eq_true fun hv he ↦ hb ?_
            rwa [← hv, ← he]
          rw [hsame]
          exact .refl
      have hrest : g.filterBodies (fun v b ↦ ⟨v, b⟩ ∉ p :: ps) =
          (g.remove p.head p.body).filterBodies fun v b ↦ ⟨v, b⟩ ∉ ps := by
        rw [remove_eq_filterBodies, filterBodies_filterBodies]
        refine filterBodies_congr fun v b _ ↦ ?_
        obtain ⟨u, c⟩ := p
        simp only [List.mem_cons, not_or, Production.mk.injEq, not_and, Bool.decide_and, ne_eq]
      exact hrest ▸ hp.trans (ih _)
  have hf : g.filterBodies f = g.filterBodies fun v b ↦ ⟨v, b⟩ ∉ g.productions.filter fun p ↦
      !f p.head p.body := by
    refine filterBodies_congr fun v b hb ↦ ?_
    have hm : (⟨v, b⟩ : Production) ∈ g.productions := mem_productions.2 hb
    simp [List.mem_filter, hm]
  exact hf ▸ hlist _ g

theorem becomes_restrict (g : Grammar) (f : Symbol → Bool) : g.Becomes (g.restrict f) := by
  have hlist : ∀ (vs : List Symbol) (g : Grammar), g.Becomes (g.restrict (· ∉ vs)) := by
    intro vs
    induction vs with
    | nil =>
      intro g
      rw [restrict_eq_self fun v _ ↦ decide_eq_true List.not_mem_nil]
      exact .refl
    | cons u vs ih =>
      intro g
      have hrest : g.restrict (· ∉ u :: vs) = (g.restrict (· ≠ u)).restrict (· ∉ vs) := by
        rw [restrict_restrict]
        simp only [List.mem_cons, not_or, Bool.decide_and, ne_eq]
      exact hrest ▸ (Becomes.of_changes (.drop g u)).trans (ih _)
  have hf : g.restrict f = g.restrict (· ∉ g.sortedHeads.filter fun v ↦ !f v) := by
    refine restrict_congr fun v hv ↦ ?_
    simp [List.mem_filter, hv]
  exact hf ▸ hlist _ g

end Grammar

namespace ProductionTable

variable {t : ProductionTable} {g h : Grammar} {v : Symbol} {b : Body} {bs : List Body}
  {op : TableOp}

theorem Holds.unique (hg : t.Holds g) (hh : t.Holds h) : g = h := by
  obtain ⟨start, rules⟩ := g
  obtain ⟨start', rules'⟩ := h
  obtain rfl : start = start' := hg.start_eq.symm.trans hh.start_eq
  obtain rfl : rules = rules' := Rules.ext_entries (hg.rules_eq.symm.trans hh.rules_eq)
  rfl

theorem Holds.put_extend (hg : t.Holds g) (hn : g.news v bs = bs) :
    (t.put v (t.bodies v ++ bs)).Holds (g.extend v bs) := by
  have hnodup : (g.bodies v ++ g.news v bs).Nodup := by
    have h := (g.rules.extend v bs).nodup_bodies v
    rwa [Rules.bodies_extend, if_pos rfl] at h
  have hput : t.put v (t.bodies v ++ bs) = t.put v (g.bodies v ++ g.news v bs) := by
    rw [hg.bodies_eq, hn]
  rw [hput]
  exact hg.put hnodup

theorem set_idxOf {old new : Body} (hn : bs.Nodup) :
    bs.set (bs.idxOf old) new = bs.map fun b ↦ if b = old then new else b := by
  induction bs with
  | nil => rfl
  | cons b bs ih =>
    obtain ⟨hb, hn⟩ := List.nodup_cons.1 hn
    rw [List.idxOf_cons, List.map_cons]
    by_cases he : b = old
    · subst he
      have hrest : bs.map (fun c ↦ if c = b then new else c) = bs.map id :=
        List.map_congr_left fun c hc ↦ if_neg (ne_of_mem_of_not_mem hc hb)
      rw [beq_self_eq_true, cond_true, if_pos rfl, hrest, List.map_id, List.set_cons_zero]
    · rw [beq_eq_false_iff_ne.2 he, cond_false, if_neg he, List.set_cons_succ, ih hn]

theorem Holds.replace {old new : Body} (hg : t.Holds g) (hold : old ∈ g.bodies v)
    (hne : old ≠ new) :
    ∃ bs, t.replace v old new = (true, t.put v bs) ∧ (t.put v bs).Holds (g.replace v old new) := by
  have hexchange : Rules.exchange old new (t.bodies v) =
      if new ∈ t.bodies v then (t.bodies v).eraseIdx ((t.bodies v).idxOf old)
      else (t.bodies v).set ((t.bodies v).idxOf old) new := by
    unfold Rules.exchange
    split
    · rw [← List.erase_eq_eraseIdx_of_idxOf rfl, hg.nodup_bodies.erase_eq_filter]
      exact List.filter_congr fun c _ ↦ Bool.eq_iff_iff.2 (decide_eq_true_iff.trans bne_iff_ne.symm)
    · exact (set_idxOf hg.nodup_bodies).symm
  refine ⟨Rules.exchange old new (t.bodies v), ?_, ?_⟩
  · have hmem : old ∈ t.bodies v := hg.bodies_eq ▸ hold
    simp only [ProductionTable.replace, hmem, hne, hexchange, ne_eq, not_false_eq_true,
      and_self, if_true]
  · rw [hg.bodies_eq]
    exact hg.put (Rules.nodup_exchange (g.rules.nodup_bodies v))

end ProductionTable

/-- An operation that changes what a table holds comes off, and the snapshot is gone with the
change. -/
theorem TableOp.Changes.exists_step {t : ProductionTable} {g h : Grammar} {op : TableOp}
    (hop : op.Changes g h) (ht : t.Holds g) (n : ℕ) :
    ∃ answer u, (Editor.mk t n).step op = .ok (answer, ⟨u, n⟩) ∧ answer.frozen? = none ∧
      u.Holds h ∧ u.snapshot = none := by
  cases hop with
  | setStart v => exact ⟨_, _, rfl, rfl, ht.setStart, rfl⟩
  | @ensure g v hv =>
    have hstep : t.ensure v = (true, t.put v []) :=
      if_neg fun hm ↦ hv (ht.heads_eq ▸ hm : v ∈ g.heads)
    have hnone : t.bodies v = [] := ht.bodies_eq.trans (Grammar.bodies_of_not_mem hv)
    refine ⟨.changed true, t.put v [], ?_, rfl, ?_, rfl⟩
    · simp only [Editor.step, hstep]
    · have hput : (t.put v (t.bodies v ++ [])).Holds (g.extend v []) := ht.put_extend rfl
      rwa [hnone] at hput
  | @add g v b hb =>
    have hstep := ProductionTable.add_of_not_mem (t := t) (ht.bodies_eq ▸ hb)
    refine ⟨.changed true, t.put v (t.bodies v ++ [b]), ?_, rfl, ht.put_extend ?_, rfl⟩
    · simp only [Editor.step, hstep]
    · rw [Grammar.news, Rules.news, distinct_eq_self (List.nodup_singleton b)]
      exact List.filter_eq_self.2 fun c hc ↦ decide_eq_true (List.mem_singleton.1 hc ▸ hb)
  | @remove g v b hb =>
    have hstep : t.remove v b = (true, t.put v ((t.bodies v).erase b)) := if_pos (ht.bodies_eq ▸ hb)
    refine ⟨.changed true, t.put v ((t.bodies v).erase b), ?_, rfl, ?_, rfl⟩
    · simp only [Editor.step, hstep]
    · have hr := ht.remove hb
      rwa [hstep] at hr
  | @replace g v old new hold hne =>
    obtain ⟨bs, hstep, hr⟩ := ht.replace hold hne
    refine ⟨.changed true, t.put v bs, ?_, rfl, hr, rfl⟩
    simp only [Editor.step, hstep]
  | drop v => exact ⟨_, _, rfl, rfl, ht.drop, rfl⟩
  | @prune g q hq hne =>
    obtain ⟨p, q', c, hp, hq', -, hc⟩ := ht.prune
    obtain rfl := Except.ok.inj (hq.symm.trans hq')
    refine ⟨.pruned p.dropped p.removed, p.table, ?_, rfl, hc.holds, ?_⟩
    · simp only [Editor.step, hp]
      rfl
    · by_cases hd : p.dropped = [] ∧ p.removed = []
      · -- had nothing gone, the table would hold both grammars
        have htable := hc.unchanged hd.1 hd.2
        exact absurd (htable ▸ hc.holds |>.unique ht) hne
      · rw [not_and_or] at hd
        exact hc.renewed hd

end ChomskyNormalForm
