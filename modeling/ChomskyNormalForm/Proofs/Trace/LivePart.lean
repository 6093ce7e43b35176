import ChomskyNormalForm.Proofs.Trace.Editor

namespace ChomskyNormalForm

theorem sublist_of_subset {α : Type} {k l m : List α} (hl : l.Nodup) (hk : k.Sublist l)
    (hm : m.Sublist l) (h : m ⊆ k) : m.Sublist k := by
  induction hk generalizing m with
  | slnil => exact hm
  | @cons k l a hk ih =>
    obtain ⟨ha, hl⟩ := List.nodup_cons.1 hl
    rcases List.sublist_cons_iff.1 hm with hm | ⟨r, rfl, -⟩
    · exact ih hl hm h
    · exact absurd (hk.subset (h List.mem_cons_self)) ha
  | @cons_cons k l a hk ih =>
    obtain ⟨ha, hl⟩ := List.nodup_cons.1 hl
    rcases List.sublist_cons_iff.1 hm with hm | ⟨r, rfl, hr⟩
    · refine (ih hl hm fun x hx ↦ ?_).cons a
      exact (List.mem_cons.1 (h hx)).resolve_left (ne_of_mem_of_not_mem (hm.subset hx) ha)
    · refine (ih hl hr fun x hx ↦ ?_).cons_cons a
      exact (List.mem_cons.1 (h (List.mem_cons_of_mem a hx))).resolve_left
        (ne_of_mem_of_not_mem (hr.subset hx) ha)

namespace ProductionTable

def listed (rules : List (Symbol × List Body)) : List Production :=
  rules.flatMap fun e ↦ e.2.map (⟨e.1, ·⟩)

def productions (t : ProductionTable) : List Production := listed t.rules

structure IsPart (u t : ProductionTable) : Prop where
  start_eq : u.start = t.start
  heads : u.heads.Sublist t.heads
  bodies : ∀ v, (u.bodies v).Sublist (t.bodies v)

/-- Variables other than the start have bodies, and bodies only variables with an entry. -/
structure IsAlive (t : ProductionTable) : Prop where
  supported : ∀ v ∈ t.heads, v ≠ t.start → t.bodies v ≠ []
  closed : ∀ v, ∀ b ∈ t.bodies v, ∀ u ∈ Body.vars b, u ∈ t.heads

variable {t u w : ProductionTable} {g : Grammar} {v x : Symbol} {b : Body} {bs : List Body}
  {rules : List (Symbol × List Body)}

theorem IsPart.refl (t : ProductionTable) : t.IsPart t := ⟨rfl, .refl _, fun _ ↦ .refl _⟩

theorem IsPart.trans (h : w.IsPart u) (h' : u.IsPart t) : w.IsPart t :=
  ⟨h.start_eq.trans h'.start_eq, h.heads.trans h'.heads, fun v ↦ (h.bodies v).trans (h'.bodies v)⟩

theorem lookup_of_mem_bodies (hb : b ∈ t.bodies v) : t.rules.lookup v = some (t.bodies v) := by
  unfold bodies at hb ⊢
  cases hl : t.rules.lookup v with
  | none =>
    rw [hl] at hb
    exact absurd hb List.not_mem_nil
  | some bs => rfl

theorem Holds.mem_heads (hg : t.Holds g) : v ∈ t.heads ↔ v ∈ g := by
  rw [hg.heads_eq]
  exact .rfl

theorem Holds.nodup_heads (hg : t.Holds g) : t.heads.Nodup := hg.heads_eq ▸ g.nodup_heads

theorem Holds.mem_bodies (hg : t.Holds g) {e : Symbol × List Body} (he : e ∈ t.rules) :
    t.bodies e.1 = e.2 := by
  rw [hg.rules_eq] at he
  rw [hg.bodies_eq]
  exact Rules.bodies_of_mem_entries he

theorem Holds.nodup_productions (hg : t.Holds g) : t.productions.Nodup := by
  refine List.nodup_flatMap.2 ⟨fun e he ↦ ?_, ?_⟩
  · rw [← hg.mem_bodies he]
    exact hg.nodup_bodies.map fun b d hbd ↦ congrArg Production.body hbd
  · have hkeys : t.rules.Pairwise fun e d ↦ e.1 ≠ d.1 := List.pairwise_map.1 hg.nodup_heads
    apply hkeys.imp
    intro e d hne p hp hp'
    obtain ⟨b, -, rfl⟩ := List.mem_map.1 hp
    obtain ⟨d, -, hd⟩ := List.mem_map.1 hp'
    exact hne (congrArg Production.head hd).symm

/-! ### One deletion -/

theorem heads_drop : (t.drop v).2.heads = t.heads.filter (· ≠ v) := by
  rw [heads, heads, List.filter_map]
  rfl

theorem Holds.bodies_drop (hg : t.Holds g) :
    (t.drop v).2.bodies x = if x = v then [] else t.bodies x := by
  rw [hg.drop.bodies_eq, hg.bodies_eq, Grammar.bodies, Grammar.restrict, Rules.bodies_restrict]
  by_cases hx : x = v
  · simp [hx]
  · simp [hx, Grammar.bodies]

theorem Holds.isPart_drop (hg : t.Holds g) : (t.drop v).2.IsPart t where
  start_eq := rfl
  heads := heads_drop ▸ List.filter_sublist
  bodies x := by
    rw [hg.bodies_drop]
    split
    · exact List.nil_sublist _
    · exact .refl _

theorem listed_filter (h : ∀ e ∈ rules, e.1 = v → e.2 = []) :
    listed (rules.filter (·.1 ≠ v)) = listed rules := by
  induction rules with
  | nil => rfl
  | cons e rules ih =>
    rw [List.forall_mem_cons] at h
    have hrest := ih h.2
    simp only [listed] at hrest ⊢
    rw [List.filter_cons, List.flatMap_cons, ← hrest]
    by_cases he : e.1 = v
    · simp [he, h.1 he]
    · simp [he]

theorem Holds.productions_drop (hg : t.Holds g) (hv : t.bodies v = []) :
    (t.drop v).2.productions = t.productions := by
  refine listed_filter fun e he hev ↦ ?_
  rw [← hg.mem_bodies he, hev, hv]

theorem heads_remove (hb : b ∈ t.bodies v) : (t.remove v b).2.heads = t.heads := by
  rw [ProductionTable.remove, if_pos hb]
  exact (Rules.map_fst_putEntry ..).trans (if_pos (mem_heads_of_mem_bodies hb))

theorem Holds.bodies_remove (hg : t.Holds g) (hb : b ∈ t.bodies v) :
    (t.remove v b).2.bodies x = if x = v then (t.bodies x).filter (· ≠ b) else t.bodies x := by
  rw [hg.bodies_eq] at hb
  rw [(hg.remove hb).bodies_eq, hg.bodies_eq, Grammar.bodies, Grammar.remove, Rules.bodies_remove]
  by_cases hx : x = v
  · rw [hx]
    rfl
  · rw [if_neg hx, if_neg hx]
    rfl

theorem Holds.isPart_remove (hg : t.Holds g) (hb : b ∈ t.bodies v) : (t.remove v b).2.IsPart t where
  start_eq := by
    rw [ProductionTable.remove, if_pos hb]
    rfl
  heads := heads_remove hb ▸ .refl _
  bodies x := by
    rw [hg.bodies_remove hb]
    split
    · exact List.filter_sublist
    · exact .refl _

theorem listed_putEntry (hv : rules.lookup v = some bs) (hb : b ∈ bs) :
    (listed (Rules.putEntry v (bs.erase b) rules) ++ [Production.mk v b]).Perm (listed rules) := by
  induction rules with
  | nil => exact nomatch hv
  | cons e rules ih =>
    unfold Rules.putEntry
    by_cases he : e.1 = v
    · obtain ⟨x, cs⟩ := e
      obtain rfl : x = v := he
      obtain rfl : cs = bs := by simpa using hv
      have hperm : (cs.map (Production.mk x)).Perm (⟨x, b⟩ :: (cs.erase b).map (Production.mk x)) :=
        (List.perm_cons_erase hb).map _
      rw [if_pos rfl]
      exact (List.perm_append_singleton _ _).trans (hperm.symm.append_right (listed rules))
    · have hv' : rules.lookup v = some bs := by
        rwa [List.lookup_cons, beq_eq_false_iff_ne.2 (Ne.symm he)] at hv
      rw [if_neg he]
      have hrest := (ih hv').append_left (e.2.map (Production.mk e.1))
      rwa [← List.append_assoc] at hrest

theorem productions_remove (hb : b ∈ t.bodies v) :
    ((t.remove v b).2.productions ++ [Production.mk v b]).Perm t.productions := by
  rw [ProductionTable.remove, if_pos hb]
  exact listed_putEntry (lookup_of_mem_bodies hb) hb

end ProductionTable

namespace Purge

open ProductionTable

/-- `p` has taken from `t` what it reports, each variable and each production once, and nothing
else. -/
structure Parts (t : ProductionTable) (p : Purge) : Prop where
  holds : ∃ g, p.table.Holds g
  part : p.table.IsPart t
  heads : (p.table.heads ++ p.dropped).Perm t.heads
  productions : (p.table.productions ++ p.removed).Perm t.productions

variable {t : ProductionTable} {p : Purge} {v : Symbol} {b : Body} {vs : List Symbol}
  {bs : List Body}

theorem Parts.dropEmpty (h : p.Parts t) (hv : v ∈ p.table.heads) : (p.dropEmpty v).Parts t := by
  unfold Purge.dropEmpty
  split
  · rename_i hidle
    obtain ⟨g, hg⟩ := h.holds
    refine ⟨⟨_, hg.drop⟩, hg.isPart_drop.trans h.part, ?_, ?_⟩
    · have hperm : p.table.heads.Perm (v :: p.table.heads.filter (· ≠ v)) := by
        have herase : p.table.heads.erase v = p.table.heads.filter (· ≠ v) := by
          rw [hg.nodup_heads.erase_eq_filter]
          exact List.filter_congr fun u _ ↦
            Bool.eq_iff_iff.2 (bne_iff_ne.trans decide_eq_true_iff.symm)
        exact herase ▸ List.perm_cons_erase hv
      rw [heads_drop]
      calc
        _ = (p.table.heads.filter (· ≠ v) ++ p.dropped) ++ [v] := (List.append_assoc ..).symm
        List.Perm _ ((v :: p.table.heads.filter (· ≠ v)) ++ p.dropped) :=
          List.perm_append_singleton _ _
        List.Perm _ (p.table.heads ++ p.dropped) := hperm.symm.append_right _
        List.Perm _ t.heads := h.heads
    · rw [hg.productions_drop hidle.2]
      exact h.productions
  · exact h

theorem mem_heads_dropEmpty {u : Symbol} (hu : u ∈ p.table.heads) (hne : u ≠ v) :
    u ∈ (p.dropEmpty v).table.heads := by
  unfold Purge.dropEmpty
  split
  · rw [heads_drop]
    exact List.mem_filter.2 ⟨hu, decide_eq_true hne⟩
  · exact hu

theorem Parts.dropAll (h : p.Parts t) (hn : vs.Nodup) (hvs : vs ⊆ p.table.heads) :
    (vs.foldl Purge.dropEmpty p).Parts t := by
  induction vs generalizing p with
  | nil => exact h
  | cons v vs ih =>
    obtain ⟨hv, hn⟩ := List.nodup_cons.1 hn
    obtain ⟨hmem, hvs⟩ := List.cons_subset.1 hvs
    refine ih (h.dropEmpty hmem) hn fun u hu ↦ ?_
    exact mem_heads_dropEmpty (hvs hu) (ne_of_mem_of_not_mem hu hv)

theorem Parts.removeDead (h : p.Parts t) (hb : b ∈ p.table.bodies v) :
    (p.removeDead v b).Parts t := by
  unfold Purge.removeDead
  split
  · obtain ⟨g, hg⟩ := h.holds
    refine ⟨⟨_, hg.remove (hg.bodies_eq ▸ hb)⟩, (hg.isPart_remove hb).trans h.part, ?_, ?_⟩
    · rw [heads_remove hb]
      exact h.heads
    · calc
        _ = (p.table.remove v b).2.productions ++ (p.removed ++ [⟨v, b⟩]) := rfl
        List.Perm _ ((p.table.remove v b).2.productions ++ ([⟨v, b⟩] ++ p.removed)) :=
          List.perm_append_comm.append_left _
        _ = ((p.table.remove v b).2.productions ++ [⟨v, b⟩]) ++ p.removed :=
          (List.append_assoc ..).symm
        List.Perm _ (p.table.productions ++ p.removed) := (productions_remove hb).append_right _
        List.Perm _ t.productions := h.productions
  · exact h

theorem Parts.mem_bodies_removeDead (h : p.Parts t) {d : Body} (hb : b ∈ p.table.bodies v)
    (hd : d ∈ p.table.bodies v) (hne : d ≠ b) : d ∈ (p.removeDead v b).table.bodies v := by
  unfold Purge.removeDead
  split
  · obtain ⟨g, hg⟩ := h.holds
    rw [hg.bodies_remove hb, if_pos rfl]
    exact List.mem_filter.2 ⟨hd, decide_eq_true hne⟩
  · exact hd

theorem Parts.removeEach (h : p.Parts t) (hn : bs.Nodup) (hbs : bs ⊆ p.table.bodies v) :
    (bs.foldl (Purge.removeDead v) p).Parts t := by
  induction bs generalizing p with
  | nil => exact h
  | cons b bs ih =>
    obtain ⟨hb, hn⟩ := List.nodup_cons.1 hn
    obtain ⟨hmem, hbs⟩ := List.cons_subset.1 hbs
    refine ih (h.removeDead hmem) hn fun d hd ↦ ?_
    exact h.mem_bodies_removeDead hmem (hbs hd) (ne_of_mem_of_not_mem hd hb)

theorem Parts.removeAll (h : p.Parts t) (vs : List Symbol) :
    (vs.foldl (fun p v ↦ (p.table.bodies v).foldl (Purge.removeDead v) p) p).Parts t := by
  induction vs generalizing p with
  | nil => exact h
  | cons v vs ih =>
    obtain ⟨g, hg⟩ := h.holds
    exact ih (h.removeEach hg.nodup_bodies (List.Subset.refl _))

theorem Parts.round (h : p.Parts t) : p.round.1.Parts t := by
  have hstart : Parts t { p with changed := false } := ⟨h.holds, h.part, h.heads, h.productions⟩
  obtain ⟨g, hg⟩ := h.holds
  have hdrop : { p with changed := false }.dropAll.Parts t :=
    hstart.dropAll ((nodup_sortBy _).2 hg.nodup_heads) fun v hv ↦ (mem_sortBy _).1 hv
  exact hdrop.removeAll _

end Purge

namespace ProductionTable

variable {t u : ProductionTable} {g q : Grammar}

theorem Holds.isAlive (hu : u.Holds q) (h : Grammar.IsPruned g q) : u.IsAlive where
  supported v hv hne := by
    rw [hu.bodies_eq]
    exact h.supported v (hu.mem_heads.1 hv) (hu.start_eq ▸ hne)
  closed v b hb x hx := by
    rw [hu.bodies_eq] at hb
    exact hu.mem_heads.2 (((h.bodies v b).1 hb).2.2 x hx)

/-- What is alive in a table survives its pruning. -/
theorem IsAlive.isPart {w : ProductionTable} (hw : w.IsAlive) (hwt : w.IsPart t) (hut : u.IsPart t)
    (ht : t.Holds g) (hu : u.Holds q) (h : Grammar.IsPruned g q) : w.IsPart u := by
  have hheads : w.heads ⊆ u.heads := by
    refine fun v hv ↦ hu.mem_heads.2 (h.largest (· ∈ w.heads) (fun v hv ↦ ⟨?_, ?_⟩) v hv)
    · exact ht.mem_heads.1 (hwt.heads.subset hv)
    by_cases hs : v = g.start
    · exact .inl hs
    have hne : w.bodies v ≠ [] := hw.supported v hv (by rwa [hwt.start_eq, ht.start_eq])
    obtain ⟨b, hb⟩ := List.exists_mem_of_ne_nil _ hne
    exact .inr ⟨b, ht.bodies_eq ▸ (hwt.bodies v).subset hb, hw.closed v b hb⟩
  refine ⟨hwt.start_eq.trans hut.start_eq.symm,
    sublist_of_subset ht.nodup_heads hut.heads hwt.heads hheads, fun v ↦ ?_⟩
  refine sublist_of_subset ht.nodup_bodies (hut.bodies v) (hwt.bodies v) fun b hb ↦ ?_
  rw [hu.bodies_eq, h.bodies v b, ← ht.bodies_eq]
  refine ⟨?_, (hwt.bodies v).subset hb, fun x hx ↦ ?_⟩
  · exact hu.mem_heads.1 (hheads (mem_heads_of_mem_bodies hb))
  · exact hu.mem_heads.1 (hheads (hw.closed v b hb x hx))

theorem Holds.prune_parts (ht : t.Holds g) : ∃ p, t.prune = .ok p ∧ p.Parts t ∧ p.table.IsAlive ∧
    ∀ w : ProductionTable, w.IsPart t → w.IsAlive → w.IsPart p.table := by
  obtain ⟨p, q, c, hp, -, hpruned, htracks⟩ := ht.prune
  have hstart : Purge.Parts t ⟨t, [], [], false⟩ :=
    ⟨⟨g, ht⟩, .refl t, by rw [List.append_nil], by rw [List.append_nil]⟩
  have hparts : p.Parts t := settled_induct (fun _ _ h ↦ h.round) hstart hp
  refine ⟨p, hp, hparts, htracks.holds.isAlive hpruned, fun w hwt hw ↦ ?_⟩
  exact hw.isPart hwt hparts.part ht htracks.holds hpruned

end ProductionTable

/-- Pruning a table, whatever was done to it before, leaves its largest live part, with variables
and bodies in their order, and reports once what is not in it. -/
theorem Editor.prune_leaves_live_part (o : Origin) (ops : List TableOp) :
    ∃ log e, o.editor.run ops = .ok (log, e) ∧ ∃ p, e.table.prune = .ok p ∧
      p.table.IsPart e.table ∧ p.table.IsAlive ∧
      (∀ u : ProductionTable, u.IsPart e.table → u.IsAlive → u.IsPart p.table) ∧
      (p.table.heads ++ p.dropped).Perm e.table.heads ∧ p.dropped.Nodup ∧
      (p.table.productions ++ p.removed).Perm e.table.productions ∧ p.removed.Nodup := by
  obtain ⟨log, e, he, hk⟩ := (Keeps.origin o).resume ops
  obtain ⟨g, hg⟩ := hk.holds
  obtain ⟨p, hp, hparts, halive, hlargest⟩ := hg.prune_parts
  refine ⟨log, e, he, p, hp, hparts.part, halive, hlargest, hparts.heads, ?_,
    hparts.productions, ?_⟩
  · exact (List.nodup_append.1 (hparts.heads.nodup_iff.2 hg.nodup_heads)).2.1
  · exact (List.nodup_append.1 (hparts.productions.nodup_iff.2 hg.nodup_productions)).2.1

end ChomskyNormalForm
