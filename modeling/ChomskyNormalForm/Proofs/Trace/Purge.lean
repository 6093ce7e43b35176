import ChomskyNormalForm.Proofs.Trace.Table

namespace ChomskyNormalForm

namespace Grammar

variable {g : Grammar} {u v : Symbol} {b : Body}

def isIdle (g : Grammar) (v : Symbol) : Bool := v ≠ g.start ∧ g.bodies v = []

def isStray (g : Grammar) (b : Body) : Bool := ∃ u ∈ Body.vars b, u ∉ g

theorem mem_emptied_iff_isIdle (hv : v ∈ g) : v ∈ g.emptied ↔ g.isIdle v = true := by
  rw [mem_emptied, and_iff_right hv, isIdle, decide_eq_true_iff]

theorem isStray_iff : g.isStray b = true ↔ ∃ u ∈ Body.vars b, u ∉ g.heads := decide_eq_true_iff

theorem isStray_eq_not_isOver : g.isStray b = !b.isOver g.headSet := by
  rw [Bool.eq_iff_iff, isStray, decide_eq_true_iff, Bool.not_eq_true', Bool.eq_false_iff, ne_eq,
    Body.isOver_iff]
  simp only [mem_headSet, not_forall, exists_prop]

theorem isStray_congr {h : Grammar} (hm : ∀ u, u ∈ h ↔ u ∈ g) : h.isStray b = g.isStray b := by
  simp only [isStray, hm]

theorem isIdle_restrict_of_ne (hu : u ≠ v) : (g.restrict (· ≠ v)).isIdle u = g.isIdle u := by
  have hbodies : (g.restrict (· ≠ v)).bodies u = g.bodies u := by
    rw [bodies, restrict, Rules.bodies_restrict, if_pos (decide_eq_true hu)]
    rfl
  rw [isIdle, isIdle, hbodies, start_restrict]

theorem any_isIdle : g.sortedHeads.any g.isIdle = !g.emptied.isEmpty := by
  rw [Bool.eq_iff_iff, List.any_eq_true, Bool.not_eq_true', List.isEmpty_eq_false_iff_exists_mem]
  constructor
  · rintro ⟨v, hv, hi⟩
    exact ⟨v, (mem_emptied_iff_isIdle (mem_sortedHeads.1 hv)).2 hi⟩
  · rintro ⟨v, hv⟩
    have hg := (mem_emptied.1 hv).1
    exact ⟨v, mem_sortedHeads.2 hg, (mem_emptied_iff_isIdle hg).1 hv⟩

theorem any_isStray : (g.sortedHeads.any fun v ↦ (g.bodies v).any g.isStray) =
    !(g.orphaned g.headSet).isEmpty := by
  rw [Bool.eq_iff_iff, List.any_eq_true, Bool.not_eq_true', List.isEmpty_eq_false_iff_exists_mem]
  simp only [List.any_eq_true, mem_orphaned, isStray_eq_not_isOver, Bool.not_eq_true']
  constructor
  · rintro ⟨v, -, b, hb⟩
    exact ⟨⟨v, b⟩, hb⟩
  · rintro ⟨p, hp⟩
    exact ⟨p.head, mem_sortedHeads.2 (mem_of_mem_bodies hp.1), p.body, hp⟩

end Grammar

namespace Purge

/-- `p` has come so far from the table `t`: it holds `g` now, and it has what was shown of `t` only
if nothing has gone. `changed` tells whether something has gone in this round. -/
structure Tracks (t : ProductionTable) (p : Purge) (g : Grammar) (changed : Bool) : Prop where
  holds : p.table.Holds g
  changed_eq : p.changed = changed
  unchanged : p.dropped = [] → p.removed = [] → p.table = t
  renewed : p.dropped ≠ [] ∨ p.removed ≠ [] → p.table.snapshot = none

variable {t : ProductionTable} {p : Purge} {g : Grammar} {c : Bool} {v : Symbol} {b : Body}
  {bs : List Body}

theorem Tracks.drop (h : p.Tracks t g c) (v : Symbol) :
    Tracks t ⟨(p.table.drop v).2, p.dropped ++ [v], p.removed, true⟩ (g.restrict (· ≠ v)) true where
  holds := h.holds.drop
  changed_eq := rfl
  unchanged hd _ := absurd hd (List.append_ne_nil_of_right_ne_nil _ (List.cons_ne_nil v []))
  renewed _ := rfl

theorem Tracks.remove (h : p.Tracks t g c) (hb : b ∈ g.bodies v) :
    Tracks t ⟨(p.table.remove v b).2, p.dropped, p.removed ++ [⟨v, b⟩], true⟩
    (g.remove v b) true where
  holds := h.holds.remove hb
  changed_eq := rfl
  unchanged _ hr := absurd hr (List.append_ne_nil_of_right_ne_nil _ (List.cons_ne_nil _ []))
  renewed _ := by
    have hmem : b ∈ p.table.bodies v := h.holds.bodies_eq ▸ hb
    rw [ProductionTable.remove, if_pos hmem]
    rfl

theorem Tracks.dropEmpty_of_isIdle (h : p.Tracks t g c) (hv : g.isIdle v = true) :
    (p.dropEmpty v).Tracks t (g.restrict (· ≠ v)) true := by
  rw [Grammar.isIdle, decide_eq_true_iff, ← h.holds.start_eq, ← h.holds.bodies_eq] at hv
  rw [dropEmpty, if_pos hv]
  exact h.drop v

theorem Tracks.dropEmpty_of_not_isIdle (h : p.Tracks t g c) (hv : ¬g.isIdle v = true) :
    p.dropEmpty v = p := by
  rw [Grammar.isIdle, decide_eq_true_iff, ← h.holds.start_eq, ← h.holds.bodies_eq] at hv
  exact if_neg hv

theorem Tracks.dropAll (h : p.Tracks t g c) (vs : List Symbol) :
    (vs.foldl dropEmpty p).Tracks t (g.restrict fun u ↦ u ∈ vs → g.isIdle u = false)
    (c || vs.any g.isIdle) := by
  induction vs generalizing p g c with
  | nil =>
    rw [List.any_nil, Bool.or_false, Grammar.restrict_eq_self fun u _ ↦
      decide_eq_true fun hu ↦ nomatch hu]
    exact h
  | cons v vs ih =>
    rw [List.foldl_cons, List.any_cons]
    by_cases hv : g.isIdle v = true
    · have hrest := ih (h.dropEmpty_of_isIdle hv)
      have hg : (g.restrict (· ≠ v)).restrict (fun u ↦ u ∈ vs →
          (g.restrict (· ≠ v)).isIdle u = false) =
          g.restrict fun u ↦ u ∈ v :: vs → g.isIdle u = false := by
        rw [Grammar.restrict_restrict]
        refine Grammar.restrict_congr fun u _ ↦ ?_
        by_cases hu : u = v
        · simp [hu, hv]
        · rw [Grammar.isIdle_restrict_of_ne hu]
          simp [hu]
      rw [hg, Bool.true_or] at hrest
      rw [hv, Bool.true_or, Bool.or_true]
      exact hrest
    · have hg : (g.restrict fun u ↦ u ∈ vs → g.isIdle u = false) =
          g.restrict fun u ↦ u ∈ v :: vs → g.isIdle u = false := by
        refine Grammar.restrict_congr fun u _ ↦ ?_
        by_cases hu : u = v
        · simp [hu, hv]
        · simp [hu]
      rw [h.dropEmpty_of_not_isIdle hv, Bool.eq_false_iff.2 hv, Bool.false_or, ← hg]
      exact ih h

theorem Tracks.removeDead_of_isStray (h : p.Tracks t g c) (hb : b ∈ g.bodies v)
    (hs : g.isStray b = true) :
    (p.removeDead v b).Tracks t (g.remove v b) true := by
  have hdead : ∃ u ∈ b.vars, u ∉ p.table.heads := by
    rw [h.holds.heads_eq]
    exact Grammar.isStray_iff.1 hs
  rw [removeDead, if_pos hdead]
  exact h.remove hb

theorem Tracks.removeDead_of_not_isStray (h : p.Tracks t g c) (hs : ¬g.isStray b = true) :
    p.removeDead v b = p := by
  rw [Grammar.isStray_iff, ← h.holds.heads_eq] at hs
  exact if_neg hs

theorem Tracks.removeEach (h : p.Tracks t g c) (hbs : bs ⊆ g.bodies v) (hn : bs.Nodup) :
    (bs.foldl (removeDead v) p).Tracks t (g.filterBodies fun u b ↦ u = v → b ∈ bs →
      g.isStray b = false) (c || bs.any g.isStray) := by
  induction bs generalizing p g c with
  | nil =>
    rw [List.any_nil, Bool.or_false, Grammar.filterBodies_eq_self fun u b _ ↦
      decide_eq_true fun _ hb ↦ nomatch hb]
    exact h
  | cons b bs ih =>
    obtain ⟨hb, hbs⟩ := List.cons_subset.1 hbs
    obtain ⟨hnb, hn⟩ := List.nodup_cons.1 hn
    rw [List.foldl_cons, List.any_cons]
    by_cases hs : g.isStray b = true
    · have hstray : ∀ d, (g.remove v b).isStray d = g.isStray d :=
        fun d ↦ Grammar.isStray_congr fun _ ↦ Grammar.mem_remove
      have hsub : bs ⊆ (g.remove v b).bodies v := fun d hd ↦
        Grammar.mem_bodies_remove.2 ⟨hbs hd, fun _ ↦ ne_of_mem_of_not_mem hd hnb⟩
      have hrest := ih (h.removeDead_of_isStray hb hs) hsub hn
      have hg : ((g.remove v b).filterBodies fun u d ↦ u = v → d ∈ bs → g.isStray d = false) =
          g.filterBodies fun u d ↦ u = v → d ∈ b :: bs → g.isStray d = false := by
        rw [Grammar.remove_eq_filterBodies, Grammar.filterBodies_filterBodies]
        refine Grammar.filterBodies_congr fun u d _ ↦ ?_
        by_cases hd : d = b
        · simp [hd, hs, hnb]
        · simp [hd]
      simp only [hstray, hg, Bool.true_or] at hrest
      rw [hs, Bool.true_or, Bool.or_true]
      exact hrest
    · have hg : (g.filterBodies fun u d ↦ u = v → d ∈ bs → g.isStray d = false) =
          g.filterBodies fun u d ↦ u = v → d ∈ b :: bs → g.isStray d = false := by
        refine Grammar.filterBodies_congr fun u d _ ↦ ?_
        by_cases hd : d = b
        · simp [hd, hs]
        · simp [hd]
      rw [h.removeDead_of_not_isStray hs, Bool.eq_false_iff.2 hs, Bool.false_or, ← hg]
      exact ih h hbs hn

theorem Tracks.removeAll {vs : List Symbol} (h : p.Tracks t g c) (hn : vs.Nodup) :
    (vs.foldl (fun p v ↦ (p.table.bodies v).foldl (removeDead v) p) p).Tracks t
      (g.filterBodies fun u b ↦ u ∈ vs → g.isStray b = false)
      (c || vs.any fun v ↦ (g.bodies v).any g.isStray) := by
  induction vs generalizing p g c with
  | nil =>
    rw [List.any_nil, Bool.or_false, Grammar.filterBodies_eq_self fun u b _ ↦
      decide_eq_true fun hu ↦ nomatch hu]
    exact h
  | cons v vs ih =>
    obtain ⟨hv, hn⟩ := List.nodup_cons.1 hn
    rw [List.foldl_cons, List.any_cons, h.holds.bodies_eq]
    -- `k` is what the bodies of `v` leave; no entry goes, so the stray bodies of the others are
    -- those of `g`
    obtain ⟨k, hk⟩ : ∃ k, k = g.filterBodies fun u b ↦
      u = v → b ∈ g.bodies v → g.isStray b = false := ⟨_, rfl⟩
    have hstray : ∀ b, k.isStray b = g.isStray b :=
      fun b ↦ Grammar.isStray_congr fun u ↦ hk ▸ Grammar.mem_filterBodies
    have hbodies : ∀ u, u ≠ v → k.bodies u = g.bodies u := by
      intro u hu
      rw [hk, Grammar.bodies, Grammar.filterBodies, Rules.bodies_filterBodies]
      exact List.filter_eq_self.2 fun b _ ↦ decide_eq_true fun he ↦ absurd he hu
    have hany : (vs.any fun u ↦ (k.bodies u).any k.isStray) = vs.any fun u ↦
        (g.bodies u).any g.isStray := by
      rw [Bool.eq_iff_iff, funext hstray, List.any_eq_true, List.any_eq_true]
      refine exists_congr fun u ↦ and_congr_right fun hu ↦ ?_
      rw [hbodies u (ne_of_mem_of_not_mem hu hv)]
    have hg : (k.filterBodies fun u b ↦ u ∈ vs → k.isStray b = false) =
        g.filterBodies fun u b ↦ u ∈ v :: vs → g.isStray b = false := by
      simp only [hstray]
      rw [hk, Grammar.filterBodies_filterBodies]
      refine Grammar.filterBodies_congr fun u b hb ↦ ?_
      by_cases hu : u = v
      · subst hu
        simp [hb, hv]
      · simp [hu]
    have hrest := ih (hk ▸ h.removeEach (List.Subset.refl (g.bodies v)) (g.rules.nodup_bodies v)) hn
    rw [hg, hany, Bool.or_assoc] at hrest
    exact hrest

/-- A purge of a table comes round by round to what comes of pruning the grammar. -/
theorem Tracks.round {q : Pruning} (h : p.Tracks t q.grammar c) :
    p.round.1.Tracks t q.round.1.grammar q.round.2 ∧ p.round.2 = q.round.2 := by
  obtain ⟨g, dropped, removed⟩ := q
  -- a variable and not a `let`, so that nothing below is rewritten within it
  obtain ⟨rest, hrest⟩ : ∃ rest, rest = g.restrict fun u ↦ u ∉ g.emptied := ⟨_, rfl⟩
  have hstart : Tracks t { p with changed := false } g false :=
    ⟨h.holds, rfl, h.unchanged, h.renewed⟩
  have hdrop : { p with changed := false }.dropAll.Tracks t rest (!g.emptied.isEmpty) := by
    have hd := hstart.dropAll g.sortedHeads
    have hg : (g.restrict fun u ↦ u ∈ g.sortedHeads → g.isIdle u = false) = rest := by
      rw [hrest]
      refine Grammar.restrict_congr fun u hu ↦ ?_
      simp [hu, Grammar.mem_emptied_iff_isIdle hu]
    rw [hg, Bool.false_or, Grammar.any_isIdle, ← hstart.holds.sortedHeads_eq] at hd
    exact hd
  have hremove : { p with changed := false }.dropAll.removeAll.Tracks t
      (rest.filterBodies fun _ b ↦ b.isOver rest.headSet)
      (!(g.emptied.isEmpty && (rest.orphaned rest.headSet).isEmpty)) := by
    have hnodup : rest.sortedHeads.Nodup := (nodup_sortBy _).2 rest.nodup_heads
    have hr := hdrop.removeAll hnodup
    have hg : (rest.filterBodies fun u b ↦ u ∈ rest.sortedHeads → rest.isStray b = false) =
        rest.filterBodies fun _ b ↦ b.isOver rest.headSet := by
      refine Grammar.filterBodies_congr fun u b hb ↦ ?_
      simp [Grammar.mem_of_mem_bodies hb, Grammar.isStray_eq_not_isOver]
    rw [hg, Grammar.any_isStray, ← Bool.not_and, ← hdrop.holds.sortedHeads_eq] at hr
    exact hr
  subst hrest
  exact ⟨hremove, hremove.changed_eq⟩

end Purge

/-- Pruning a table comes to what pruning the grammar comes to, and shows the table as it was only
if nothing went. -/
theorem ProductionTable.Holds.prune {t : ProductionTable} {g : Grammar} (hg : t.Holds g) :
    ∃ p q c, t.prune = .ok p ∧ g.pruned = .ok q ∧ Grammar.IsPruned g q.grammar ∧
    Purge.Tracks t p q.grammar c := by
  have hlen : t.rules.length = g.heads.length := by
    rw [hg.rules_eq, Grammar.heads, Rules.keys, List.length_map]
  have hmatch : Matches Eq (fun p (q : Pruning) ↦ ∃ c, Purge.Tracks t p q.grammar c)
      t.prune g.pruned := by
    rw [ProductionTable.prune, hlen]
    refine settled_matches _ _ (fun _ p q hpq ↦ ?_) ⟨false, hg, rfl, fun _ _ ↦ rfl, fun h ↦ ?_⟩
    · obtain ⟨c, hc⟩ := hpq
      exact ⟨⟨_, hc.round.1⟩, hc.round.2⟩
    · exact (h.elim (· rfl) (· rfl)).elim
  obtain ⟨q, hq, hpruned, -⟩ := g.exists_pruned
  rw [hq] at hmatch
  generalize hp : t.prune = x at hmatch
  cases hmatch with
  | ok hc =>
    obtain ⟨c, hc⟩ := hc
    exact ⟨_, q, c, rfl, hq, hpruned, hc⟩

end ChomskyNormalForm
