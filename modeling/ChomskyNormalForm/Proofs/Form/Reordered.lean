import ChomskyNormalForm.Proofs.Analysis.Reordered
import ChomskyNormalForm.Proofs.Form.Normal
import ChomskyNormalForm.Proofs.Trace.Reordered

namespace ChomskyNormalForm

namespace Trimming.Reordered

variable {t u : Trimming} (h : t.Reordered u)

include h

theorem productive_eq : t.productive = u.productive := by rw [productive, h.layers_eq, productive]

theorem retained_eq : t.retained = u.retained := by
  rw [retained, h.productive_eq, h.reachable_eq, retained]

theorem isEmpty_eq : t.isEmpty = u.isEmpty := by
  rw [isEmpty, h.grammar.start_eq, h.retained_eq, isEmpty]

end Trimming.Reordered

namespace Session.Reordered

variable {s t : Session} {v : Symbol}

theorem dropUngrounded {r r' : Trimming} (hs : s.Reordered t) (hr : r.Reordered r') :
    (s.dropUngrounded r).Reordered (t.dropUngrounded r') := by
  unfold Session.dropUngrounded
  rw [hs.grammar.productions_eq, hr.productive_eq]
  exact hs.commit_unless _ hr.filtered ..

theorem dropUnretained {r r' : Trimming} (hs : s.Reordered t) (hr : r.Reordered r') :
    (s.dropUnretained r).Reordered (t.dropUnretained r') := by
  unfold Session.dropUnretained
  rw [hr.filtered.sortedHeads_eq, hr.retained_eq, funext hr.filtered.productionsOf_eq]
  exact hs.commit_unless _ hr.grammar ..

theorem trim (hs : s.Reordered t) :
    Matches Halt.SameFault (fun p q ↦ p.1.Reordered q.1 ∧ p.2.Reordered q.2) s.trim t.trim := by
  rw [trim_eq, trim_eq]
  refine (expect_matches s t hs.grammar.trimming).bind fun r r' hr ↦ .ok ⟨?_, hr⟩
  have hn := (hs.note (Grammar.productiveActions r.layers)).dropUngrounded hr
  have hd := (hn.emit .reachable (Symbol.sort r.reachable) [] []).dropUnretained hr
  have hv := hd.emit (.verdict s.grammar.start r.isEmpty) (Symbol.sort r.retained) [] []
  rw [trimmed, trimmed, ← hs.grammar.start_eq, ← hr.isEmpty_eq, ← hr.retained_eq, ← hr.layers_eq,
    ← hr.reachable_eq]
  exact hv

theorem introduceStart (hs : s.Reordered t) (fresh : Symbol) :
    (s.introduceStart fresh).Reordered (t.introduceStart fresh) := by
  unfold Session.introduceStart
  rw [hs.grammar.start_eq]
  exact hs.commit ((hs.grammar.extend ..).withStart fresh) ..

theorem findNullable (hs : s.Reordered t) :
    Matches Halt.SameFault (fun p q ↦ p.1.Reordered q.1 ∧
      p.2 = q.2) s.findNullable t.findNullable := by
  refine (expect_matches s t (.of_eq (fun _ ↦ rfl) hs.grammar.nullableLayers_eq)).bind
    fun layers _ he ↦ ?_
  subst he
  exact .ok ⟨hs.note _, rfl⟩

theorem keepEpsilon (hs : s.Reordered t) (fresh old : Symbol) (nullable : List Symbol) :
    (s.keepEpsilon fresh old nullable).Reordered (t.keepEpsilon fresh old nullable) := by
  unfold Session.keepEpsilon
  split
  · exact hs.commit (hs.grammar.extend ..) ..
  · exact hs

theorem addVariants (hs : s.Reordered t) (nullable : List Symbol) (v : Symbol) :
    (s.addVariants nullable v).Reordered (t.addVariants nullable v) := by
  unfold Session.addVariants
  rw [hs.grammar.newVariants_eq]
  split
  · exact hs
  · exact hs.commit (hs.grammar.extend ..) ..

theorem dropEpsilons (hs : s.Reordered t) : s.dropEpsilons.Reordered t.dropEpsilons := by
  unfold Session.dropEpsilons
  simp only [hs.grammar.sortedHeads_eq, hs.grammar.start_eq, hs.grammar.bodies_eq]
  split
  · exact hs
  · exact hs.commit (hs.grammar.filterBodies _) ..

theorem pruneEmpty (hs : s.Reordered t) :
    Matches Halt.SameFault Reordered s.pruneEmpty t.pruneEmpty := by
  refine (expect_matches s t hs.grammar.pruned).bind fun p q hp ↦ .ok ?_
  rw [hp.dropped_eq, hp.removed_eq]
  exact hs.commit_unless _ hp.grammar ..

theorem eliminateEpsilon (hs : s.Reordered t) (fresh : Symbol) :
    Matches Halt.SameFault (fun p q ↦ p.1.Reordered q.1) (s.eliminateEpsilon fresh)
    (t.eliminateEpsilon fresh) := by
  rw [eliminateEpsilon_eq, eliminateEpsilon_eq]
  refine (hs.introduceStart fresh).findNullable.bind fun p q ⟨hp, hn⟩ ↦ ?_
  rw [hn, hs.grammar.start_eq]
  have hk := hp.keepEpsilon fresh t.grammar.start q.2
  have hv := hk.foldl (p.1.keepEpsilon fresh t.grammar.start q.2).grammar.sortedHeads
    fun s t hs v _ ↦ hs.addVariants q.2 v
  rw [expand, expand, ← hk.grammar.sortedHeads_eq]
  exact hv.dropEpsilons.pruneEmpty.bind fun _ _ h ↦ .ok h

theorem findUnitClosure (hs : s.Reordered t) :
    Matches Halt.SameFault (fun p q ↦ p.1.Reordered q.1 ∧ p.2.members = q.2.members)
      s.findUnitClosure t.findUnitClosure := by
  refine (expect_matches s t hs.grammar.unitClosure).bind fun c d hc ↦ .ok ⟨?_, hc⟩
  rw [hs.grammar.sortedHeads_eq, hc]
  exact hs.note _

theorem copyBodies {c d : UnitClosure} (hs : s.Reordered t) (hc : c.members = d.members)
    (v : Symbol) :
    (s.copyBodies c v).Reordered (t.copyBodies d v) := by
  unfold Session.copyBodies
  rw [hs.grammar.inherited_eq hc, hs.grammar.news_eq]
  split
  · exact hs
  · exact hs.commit (hs.grammar.extend ..) ..

theorem removeUnits (hs : s.Reordered t) (v : Symbol) :
    (s.removeUnits v).Reordered (t.removeUnits v) := by
  unfold Session.removeUnits
  rw [hs.grammar.bodies_eq]
  exact hs.foldl _ fun s t hs w _ ↦ hs.commit (hs.grammar.remove ..) ..

theorem expandStart (hs : s.Reordered t) (v : Symbol) (b : Body) :
    Matches Halt.SameFault Reordered (s.expandStart v b) (t.expandStart v b) := by
  unfold Session.expandStart
  have hrest := hs.grammar.remove v b
  simp only [hs.grammar.startReplacements_eq, hs.grammar.start_eq, hrest.news_eq]
  split
  · exact .error rfl
  · exact .ok (hs.commit (hrest.extend ..) ..)

theorem protectStart (hs : s.Reordered t) :
    Matches Halt.SameFault Reordered s.protectStart t.protectStart := by
  unfold Session.protectStart
  rw [hs.grammar.sortedHeads_eq, hs.grammar.start_eq]
  refine .foldlM (fun s t hs v _ ↦ ?_) hs
  rw [hs.grammar.bodies_eq, hs.grammar.start_eq]
  exact .foldlM (fun s t hs b _ ↦ hs.expandStart v b) hs

theorem dropUnproductive (hs : s.Reordered t) :
    Matches Halt.SameFault Reordered s.dropUnproductive t.dropUnproductive := by
  refine (expect_matches s t (.of_eq (fun _ ↦ rfl) hs.grammar.productive_eq)).bind
    fun productive _ he ↦ ?_
  subst he
  rw [hs.grammar.sortedHeads_eq, hs.grammar.start_eq, funext hs.grammar.productionsOf_eq]
  refine (expect_matches s t (hs.grammar.restrict _).pruned).bind fun p q hp ↦ .ok ?_
  rw [hp.dropped_eq, hp.removed_eq]
  exact hs.commit_unless _ hp.grammar ..

theorem dropUnreachable (hs : s.Reordered t) : s.dropUnreachable.Reordered t.dropUnreachable := by
  unfold Session.dropUnreachable
  simp only [hs.grammar.sortedHeads_eq, hs.grammar.reachable_eq, funext hs.grammar.productionsOf_eq]
  split
  · exact hs
  · exact hs.commit (hs.grammar.restrict _) ..

theorem eliminateUnits (hs : s.Reordered t) :
    Matches Halt.SameFault Reordered s.eliminateUnits t.eliminateUnits := by
  refine hs.findUnitClosure.bind fun p q ⟨hp, hc⟩ ↦ ?_
  dsimp only
  have hcopy := hp.foldl p.1.grammar.sortedHeads fun s t hs v _ ↦ hs.copyBodies hc v
  have hremove :=
    hcopy.foldl (p.1.grammar.sortedHeads.foldl (Session.copyBodies p.2) p.1).grammar.sortedHeads
    fun s t hs v _ ↦ hs.removeUnits v
  rw [← hp.grammar.sortedHeads_eq, ← hcopy.grammar.sortedHeads_eq]
  refine hremove.protectStart.bind fun s t hs ↦ hs.dropUnproductive.bind fun s t hs ↦
    .ok hs.dropUnreachable

end Session.Reordered

structure Isolation.Reordered (i j : Isolation) : Prop where
  session : i.session.Reordered j.session
  allocator : i.allocator.Alike j.allocator
  helpers_eq : i.helpers = j.helpers

namespace Isolation.Reordered

variable {i j : Isolation}

theorem helperFor (hi : i.Reordered j) (a : String) :
    Matches Halt.SameFault (fun p q ↦ p.1 = q.1 ∧ p.2.Reordered q.2) (i.helperFor a)
    (j.helperFor a) := by
  have ha := hi.allocator.allocate
  unfold Isolation.helperFor
  rw [hi.helpers_eq]
  cases j.helpers.lookup a with
  | some v => exact .ok ⟨rfl, hi⟩
  | none =>
    generalize i.allocator.allocate = x, j.allocator.allocate = y at ha
    cases ha with
    | none => exact .error (congrArg Fault.namesExhausted hi.allocator.limit_eq)
    | @some p q hp =>
      obtain ⟨name, rest⟩ := p
      obtain ⟨_, rest'⟩ := q
      obtain ⟨rfl, hrest⟩ := hp
      exact .ok ⟨rfl, hi.session.commitProduction .., hrest, rfl⟩

theorem isolate (hi : i.Reordered j) (b : Body) :
    Matches Halt.SameFault (fun p q ↦ p.1 = q.1 ∧ p.2.Reordered q.2) (i.isolate b)
    (j.isolate b) := by
  induction b generalizing i j with
  | nil => exact .ok ⟨rfl, hi⟩
  | cons s b ih =>
    have hkept : Matches Halt.SameFault (fun p q ↦ p.1 = q.1 ∧ p.2.Reordered q.2)
        (i.isolate b >>= fun p ↦ .ok (s :: p.1, p.2))
        (j.isolate b >>= fun q ↦ .ok (s :: q.1, q.2)) :=
      (ih hi).bind fun p q ⟨hb, hp⟩ ↦ .ok ⟨congrArg (s :: ·) hb, hp⟩
    cases s with
    | terminal a =>
      refine (hi.helperFor a).bind fun p q ⟨hv, hp⟩ ↦ (ih hp).bind fun r t ⟨hb, hr⟩ ↦ .ok ⟨?_, hr⟩
      rw [hv, hb]
    | var | epsilon | foreign => exact hkept

theorem body (hi : i.Reordered j) (v : Symbol) (b : Body) :
    Matches Halt.SameFault Reordered (Isolation.body v i b) (Isolation.body v j b) := by
  unfold Isolation.body
  split
  · exact .ok hi
  · refine (hi.isolate b).bind fun p q ⟨hb, hp⟩ ↦ .ok ⟨?_, hp.allocator, hp.helpers_eq⟩
    dsimp only
    rw [hb]
    exact hp.session.commit (hp.session.grammar.replace ..) ..

end Isolation.Reordered

structure Cascade.Reordered (c d : Cascade) : Prop where
  session : c.session.Reordered d.session
  allocator : c.allocator.Alike d.allocator
  cache_eq : c.cache = d.cache

namespace Cascade

theorem split_reordered {s t : Session} (hs : s.Reordered t) (v : Symbol) (b short : Body) :
    (split s v b short).Reordered (split t v b short) :=
  hs.commit (hs.grammar.replace ..) ..

theorem Reordered.body {c d : Cascade} (hc : c.Reordered d) (v : Symbol) (b : Body) :
    Matches Halt.SameFault Reordered (Cascade.body v c b) (Cascade.body v d b) := by
  unfold Cascade.body
  split
  · rename_i first second third rest
    have ha := hc.allocator.allocateMany (rest.length + 1)
    rw [hc.cache_eq]
    dsimp only
    cases d.cache.lookup (first :: second :: third :: rest) with
    | some helpers =>
      exact .ok ⟨split_reordered (hc.session.emit ..) .., hc.allocator, rfl⟩
    | none =>
      generalize Allocator.allocateMany (rest.length + 1) c.allocator = x,
        Allocator.allocateMany (rest.length + 1) d.allocator = y at ha
      cases ha with
      | none => exact .error (congrArg Fault.namesExhausted hc.allocator.limit_eq)
      | @some p q hp =>
        obtain ⟨names, left⟩ := p
        obtain ⟨_, left'⟩ := q
        obtain ⟨rfl, hleft⟩ := hp
        refine .ok ⟨Session.Reordered.foldl ?_ _ fun s t hs p _ ↦
          hs.commitProduction p .addBinaryRule, hleft, rfl⟩
        exact split_reordered (hc.session.emit ..) ..
  · exact .ok hc

end Cascade

namespace Session.Reordered

variable {s t : Session} {a b : Allocator}

theorem isolateTerminals (hs : s.Reordered t) (ha : a.Alike b) :
    Matches Halt.SameFault (fun p q ↦ p.1.Reordered q.1 ∧ p.2.Alike q.2)
      (s.isolateTerminals a) (t.isolateTerminals b) := by
  have hstart : (⟨s, a, s.grammar.terminalHelpers⟩ : Isolation).Reordered
      ⟨t, b, t.grammar.terminalHelpers⟩ :=
    ⟨hs, ha, hs.grammar.terminalHelpers_eq⟩
  unfold Session.isolateTerminals
  rw [hs.grammar.sortedHeads_eq]
  refine (Matches.foldlM (fun i j hi v _ ↦ ?_) hstart).bind fun i j hi ↦
    .ok ⟨hi.session, hi.allocator⟩
  rw [hi.session.grammar.bodies_eq]
  exact .foldlM (fun i j hi b _ ↦ hi.body v b) hi

theorem cascade (hs : s.Reordered t) (ha : a.Alike b) (cache : CascadeCache) :
    Matches Halt.SameFault Cascade.Reordered (s.cascade a cache) (t.cascade b cache) := by
  unfold Session.cascade
  rw [hs.grammar.sortedHeads_eq]
  refine .foldlM (fun c d hc v _ ↦ ?_) ⟨hs, ha, rfl⟩
  rw [hc.session.grammar.bodies_eq]
  exact .foldlM (fun c d hc b _ ↦ hc.body v b) hc

theorem decideFiniteness (hs : s.Reordered t) :
    s.decideFiniteness.1.Reordered t.decideFiniteness.1 ∧
    s.decideFiniteness.2 = t.decideFiniteness.2 := by
  unfold Session.decideFiniteness
  rw [hs.grammar.searchCycle_eq]
  exact ⟨hs.note _, rfl⟩

theorem freshStart_eq (hs : s.Reordered t) (ha : a.Alike b) : s.freshStart a = t.freshStart b := by
  refine freshStart_congr fun n ↦ ?_
  rw [Std.TreeSet.mem_insertMany_list, Std.TreeSet.mem_insertMany_list, ha.used_iff,
    List.contains_iff_mem, List.contains_iff_mem, Grammar.names,
    (hs.grammar.heads_perm.map _).mem_iff, Grammar.names]

end Session.Reordered

structure Normalization.Reordered (n m : Normalization) : Prop where
  trimmed : n.trimmed.Reordered m.trimmed
  grammar : n.grammar.Reordered m.grammar
  isEmpty_eq : n.isEmpty = m.isEmpty
  isInfinite_eq : n.isInfinite = m.isInfinite
  cycle_eq : n.cycle = m.cycle
  events : List.Forall₂ Event.Reordered n.session.events m.session.events

namespace Session.Reordered

variable {s t : Session} {g h : Grammar}

theorem conclude (hs : s.Reordered t) (hg : g.Reordered h) :
    Matches Halt.SameFault Normalization.Reordered (s.conclude g) (t.conclude h) := by
  obtain ⟨hd, hcycle⟩ := hs.decideFiniteness
  unfold Session.conclude
  rw [hs.grammar.violations_eq]
  dsimp only
  split
  · exact .error rfl
  · exact .ok ⟨hg, hs.grammar, rfl, congrArg (fun c ↦ some (!c.isEmpty)) hcycle, hcycle, hd.events⟩

/-- Reordered grammars go the same way through all stages. -/
theorem normalize (hs : s.Reordered t) (hg : s.grammar.IsLegal) :
    Matches Halt.SameFault Normalization.Reordered s.normalize t.normalize := by
  have hnames : s.grammar.names.Perm t.grammar.names := hs.grammar.heads_perm.map _
  -- both draw names from supplies that hold the same ones, so all names agree
  have hnew := Allocator.alike_new hnames Allocator.defaultLimit
  rw [normalize_eq, normalize_eq, Grammar.check_eq_ok_iff.2 hg,
    Grammar.check_eq_ok_iff.2 (hs.grammar.isLegal hg)]
  refine hs.trim.bind fun p q ⟨hp, ht⟩ ↦ ?_
  rw [ht.isEmpty_eq]
  have hfresh := hp.freshStart_eq hnew
  split
  · have hnothing : (⟨p.2.grammar.start, .empty⟩ : Grammar).Reordered ⟨q.2.grammar.start, .empty⟩ :=
      ⟨ht.grammar.start_eq, fun _ ↦ Iff.rfl, fun _ ↦ rfl⟩
    exact .ok ⟨ht.grammar, hnothing, rfl, rfl, rfl, hp.events⟩
  · dsimp only
    rw [hfresh]
    refine (hp.eliminateEpsilon _).bind fun e e' he ↦ he.eliminateUnits.bind fun u u' hu ↦ ?_
    refine (hu.isolateTerminals (hnew.reserve _)).bind fun i i' ⟨hi, ha⟩ ↦ ?_
    exact (hi.cascade ha []).bind fun c c' hc ↦ hc.session.conclude ht.grammar

end Session.Reordered

end ChomskyNormalForm
