import ChomskyNormalForm.Form.UnitFree
import ChomskyNormalForm.Proofs.Analysis.UnitClosure
import ChomskyNormalForm.Proofs.Form.EpsilonFree
import ChomskyNormalForm.Proofs.Form.Trimmed

namespace ChomskyNormalForm

theorem Body.isUnit_eq_false {b : Body} : b.isUnit = false ↔ ∀ v, v.isVar = true → b ≠ [v] := by
  rw [Bool.eq_false_iff, ne_eq, isUnit_iff]
  constructor
  · exact fun h v hv hb ↦ h ⟨v, hb, hv⟩
  · exact fun h ⟨v, hb, hv⟩ ↦ h v hv hb

namespace Grammar

variable {g e : Grammar} {c : UnitClosure} {u v : Symbol} {b : Body} {w : Word}

/-- `b` is a body of a variable that unit productions lead to from `v`, and may be a body of `v`. -/
def Inherits (g : Grammar) (v : Symbol) (b : Body) : Prop :=
  ∃ u, g.UnitReaches v u ∧ b ∈ g.bodies u ∧ b.isUnit = false ∧ b ≠ Body.epsilon ∧
    (v = g.start ∨ g.start ∉ b)

theorem mem_inherited : b ∈ g.inherited c v ↔ ∃ u ∈ c.members v, u ≠ v ∧ b ∈ g.bodies u ∧
    b.isUnit = false ∧
    b ≠ Body.epsilon ∧ (v = g.start ∨ g.start ∉ b) := by
  simp only [inherited, List.mem_flatMap, List.mem_filter, decide_eq_true_eq, Bool.and_eq_true,
    Bool.not_eq_true', Body.isEpsilon_eq_false, Bool.or_eq_true, and_assoc]

theorem mem_startReplacements : b ∈ g.startReplacements ↔
    b ∈ g.bodies g.start ∧ b ≠ Body.epsilon ∧ g.start ∉ b := by
  simp only [startReplacements, List.mem_filter, Bool.and_eq_true, Bool.not_eq_true',
    Body.isEpsilon_eq_false, decide_eq_true_eq]

theorem UnitReaches.mem (h : g.UnitReaches v u) (hu : u ∈ g) : v ∈ g := by
  rcases Relation.ReflTransGen.cases_head h with rfl | ⟨x, hx, -⟩
  · exact hu
  · exact mem_of_mem_bodies (mem_unitTargets.1 hx).1

theorem Inherits.mem (h : g.Inherits v b) : v ∈ g := by
  obtain ⟨u, hu, hb, -⟩ := h
  exact hu.mem (mem_of_mem_bodies hb)

theorem UnitReaches.derives (h : g.UnitReaches v u) (hu : g.Derives u w) : g.Derives v w := by
  induction h using Relation.ReflTransGen.head_induction_on with
  | refl => exact hu
  | head hx _ ih =>
    obtain ⟨hb, hvar, -⟩ := mem_unitTargets.1 hx
    exact derives_of_mem hb (Body.denotes_singleton.2 ((Symbol.denotes_var hvar).2 ih))

structure IsUnitExpanded (g e : Grammar) : Prop where
  start_eq : e.start = g.start
  mem : ∀ v, v ∈ e ↔ v ∈ g
  bodies : ∀ v b, b ∈ e.bodies v ↔ b.isUnit = false ∧ (b ∈ g.bodies v ∨ g.Inherits v b)

theorem IsUnitExpanded.exists_of_mem (h : IsUnitExpanded g e) (hb : b ∈ e.bodies v) :
    ∃ u, g.UnitReaches v u ∧ b ∈ g.bodies u := by
  rcases ((h.bodies v b).1 hb).2 with hb | ⟨u, hu, hb, -⟩
  · exact ⟨v, .refl, hb⟩
  · exact ⟨u, hu, hb⟩

theorem IsUnitExpanded.isLegal (h : IsUnitExpanded g e) (hg : g.IsLegal) : e.IsLegal where
  start_mem := h.start_eq ▸ (h.mem _).2 hg.start_mem
  head v hv := hg.head v ((h.mem v).1 hv)
  body v b hb := by
    obtain ⟨u, -, hb⟩ := h.exists_of_mem hb
    exact hg.body u b hb
  closed v u hm := by
    obtain ⟨b, hb, hu⟩ := hm
    obtain ⟨x, -, hb⟩ := h.exists_of_mem hb
    exact (h.mem u).2 (hg.closed x u ⟨b, hb, hu⟩)

theorem IsUnitExpanded.isEpsilonFree (h : IsUnitExpanded g e) (hg : g.IsEpsilonFree) :
    e.IsEpsilonFree where
  legal := h.isLegal hg.legal
  start_off v := fun ⟨b, hb, hu⟩ ↦ by
    obtain ⟨x, -, hb⟩ := h.exists_of_mem hb
    exact hg.start_off x ⟨b, hb, h.start_eq ▸ hu⟩
  epsilon v hb := by
    rcases ((h.bodies v _).1 hb).2 with hb | ⟨u, -, -, -, hne, -⟩
    · exact (hg.epsilon v hb).trans h.start_eq.symm
    · exact absurd rfl hne

theorem IsUnitExpanded.derives (h : IsUnitExpanded g e) (hw : e.Derives v w) : g.Derives v w := by
  refine derives_least (fun v b hb w hw ↦ ?_) hw
  obtain ⟨u, hu, hb⟩ := h.exists_of_mem hb
  exact hu.derives (derives_of_mem hb hw)

def IsCopyable (g : Grammar) : Prop :=
  ∀ v u, g.UnitReaches v u → u ≠ v → ∀ b ∈ g.bodies u, b.isUnit = false →
    b ≠ Body.epsilon ∧ (v = g.start ∨ g.start ∉ b)

theorem IsEpsilonFree.isCopyable (hg : g.IsEpsilonFree) : g.IsCopyable := by
  intro v u hr hne b hb _
  have hu : u ≠ g.start := by
    obtain ⟨x, -, hx⟩ := (Relation.ReflTransGen.cases_tail hr).resolve_left fun he ↦ hne he
    obtain ⟨hb, hvar, -⟩ := mem_unitTargets.1 hx
    intro he
    exact hg.start_off x (he ▸ ⟨[u], hb, Body.mem_vars.2 ⟨List.mem_singleton_self u, hvar⟩⟩)
  exact ⟨fun he ↦ hu (hg.epsilon u (he ▸ hb)), .inr (hg.start_not_mem hb)⟩

/-- Where no body is left behind, the words of every variable are kept. -/
theorem IsUnitExpanded.derives_iff (h : IsUnitExpanded g e) (hg : g.IsLegal)
    (hcopy : g.IsCopyable) :
    e.Derives v w ↔ g.Derives v w := by
  refine ⟨h.derives, derives_induct (fun v b hb w hw ↦ ?_)⟩
  have hew : Body.Denotes e.Derives b w := hw.mono fun _ _ _ ↦ And.right
  cases hunit : b.isUnit with
  | false => exact derives_of_mem ((h.bodies v b).2 ⟨hunit, .inl hb⟩) hew
  | true =>
    obtain ⟨u, rfl, hvar⟩ := Body.isUnit_iff.1 hunit
    have hm : g.Mentions v u := ⟨[u], hb, Body.mem_vars.2 ⟨List.mem_singleton_self u, hvar⟩⟩
    have htarget : u ∈ g.unitTargets v := mem_unitTargets.2 ⟨hb, hvar, hg.closed v u hm⟩
    -- The word comes from a body of `u`, which `v` inherits with the chain prolonged at its front.
    rw [Body.denotes_singleton, Symbol.denotes_var hvar] at hew
    obtain ⟨c, hc, hcw⟩ := Grammar.derives_iff.1 hew
    have hcu := ((h.bodies u c).1 hc).1
    obtain ⟨x, hx, hcx⟩ := h.exists_of_mem hc
    have hreach : g.UnitReaches v x := Relation.ReflTransGen.head htarget hx
    refine derives_of_mem ((h.bodies v c).2 ⟨hcu, ?_⟩) hcw
    by_cases hxv : x = v
    · exact .inl (hxv ▸ hcx)
    · obtain ⟨hce, hstart⟩ := hcopy v x hreach hxv c hcx hcu
      exact .inr ⟨x, hreach, hcx, hcu, hce, hstart⟩

structure IsUnitFree (g : Grammar) : Prop extends IsEpsilonFree g where
  isUnit : ∀ v, ∀ b ∈ g.bodies v, b.isUnit = false
  useful : ∀ v ∈ g, g.IsUseful v

/-- `t` holds the start and the grounded variables, as far as the start reaches them, with their
bodies over such variables. -/
structure IsCleared (g t : Grammar) : Prop where
  start_eq : t.start = g.start
  mem : ∀ v, v ∈ t ↔ (v = g.start ∨ g.IsGrounded v) ∧ t.Reaches t.start v
  bodies : ∀ v b, b ∈ t.bodies v ↔ v ∈ t ∧ b ∈ g.bodies v ∧ ∀ u ∈ Body.vars b, u = g.start ∨
    g.IsGrounded u

namespace IsCleared

variable {t : Grammar}

theorem start_mem (h : IsCleared g t) : t.start ∈ t := (h.mem _).2 ⟨.inl h.start_eq, .refl⟩

theorem mem_bodies (h : IsCleared g t) (hb : b ∈ t.bodies v) : b ∈ g.bodies v :=
  ((h.bodies v b).1 hb).2.1

theorem closed (h : IsCleared g t) (hm : t.Mentions v u) : u ∈ t := by
  obtain ⟨b, hb, hu⟩ := id hm
  obtain ⟨hv, -, hg⟩ := (h.bodies v b).1 hb
  exact (h.mem u).2 ⟨hg u hu, ((h.mem v).1 hv).2.tail hm⟩

theorem derives_iff (h : IsCleared g t) (hv : v ∈ t) : t.Derives v w ↔ g.Derives v w := by
  refine derives_iff_of_part (fun v b ↦ h.mem_bodies) (fun v hv b hb hu ↦ ?_)
    (fun _ _ ↦ h.closed) hv
  exact (h.bodies v b).2 ⟨hv, hb, fun u hu' ↦ .inr (hu u hu').isGrounded⟩

theorem isProductive (h : IsCleared g t) (hg : g.IsProper) (hv : v ∈ t) (hne : v ≠ t.start) :
    t.IsProductive v := by
  have hgr := ((h.mem v).1 hv).1.resolve_left fun he ↦ hne (he.trans h.start_eq.symm)
  obtain ⟨w, hw⟩ := hg.isGrounded_iff.1 hgr
  exact ⟨w, (h.derives_iff hv).2 hw⟩

/-- Where the start derives some word, clearing is trimming. -/
theorem isTrimmed (h : IsCleared g t) (hs : g.IsGrounded g.start) : IsTrimmed g t := by
  have hgr : ∀ v, v = g.start ∨ g.IsGrounded v ↔ g.IsGrounded v := by
    intro v
    rw [or_iff_right_iff_imp]
    exact fun hv ↦ hv ▸ hs
  refine ⟨h.start_eq, fun v ↦ ?_, fun v b ↦ ?_⟩
  · rw [h.mem, hgr]
  · simp only [h.bodies, hgr]

end IsCleared

/-- Unproductive variables, then what is dead without them, then unreachable variables: this is
clearing. -/
theorem IsPruned.isCleared {p : Symbol → Bool} {q : Grammar} (h : IsPruned (g.restrict p) q)
    (hs : g.start ∈ g) (hp : ∀ v, p v = true ↔ v = g.start ∨ g.IsGrounded v) :
    IsCleared g (q.restrict (· ∈ q.reachable)) := by
  have hmem : ∀ v, v ∈ q ↔ v = g.start ∨ g.IsGrounded v := by
    intro v
    constructor
    · exact fun hv ↦ (hp v).1 (mem_restrict.1 (h.mem v hv)).2
    · refine h.largest (fun v ↦ v = g.start ∨ g.IsGrounded v) (fun v hv ↦ ?_) v
      refine ⟨mem_restrict.2 ⟨?_, (hp v).2 hv⟩, hv.imp_right fun hgr ↦ ?_⟩
      · exact hv.elim (fun he ↦ he ▸ hs) fun hgr ↦ hgr.mem
      · obtain ⟨hb, hu⟩ := hgr
        exact ⟨_, mem_bodies_restrict.2 ⟨hb, (hp v).2 hv⟩, fun u hu' ↦ .inr (hu u hu')⟩
  have hbodies : ∀ v b, b ∈ q.bodies v ↔
      v ∈ q ∧ b ∈ g.bodies v ∧ ∀ u ∈ Body.vars b, u = g.start ∨ g.IsGrounded u := by
    intro v b
    simp only [h.bodies, mem_bodies_restrict, hp, hmem]
    constructor
    · exact fun ⟨hv, hb, hu⟩ ↦ ⟨hv, hb.1, hu⟩
    · exact fun ⟨hv, hb, hu⟩ ↦ ⟨hv, ⟨hb, hv⟩, hu⟩
  have hreach : ∀ v, (q.restrict (· ∈ q.reachable)).Reaches q.start v ↔ q.Reaches q.start v :=
    fun v ↦ reaches_restrict_iff fun u x hu _ ↦ by simpa [mem_reachable] using hu
  refine ⟨h.start_eq, fun v ↦ ?_, fun v b ↦ ?_⟩
  · rw [mem_restrict, hmem, decide_eq_true_eq, mem_reachable, start_restrict, hreach]
  · rw [mem_bodies_restrict, mem_restrict, hbodies, and_right_comm]

theorem IsUnitExpanded.isUnitFree {t : Grammar} (h : IsUnitExpanded g e) (ht : IsTrimmed e t)
    (hg : g.IsEpsilonFree) (hs : g.IsProductive g.start) : t.IsUnitFree := by
  have he := h.isEpsilonFree hg
  have hes : e.IsProductive e.start := by
    obtain ⟨w, hw⟩ := hs
    exact ⟨w, h.start_eq ▸ (h.derives_iff hg.legal hg.isCopyable).2 hw⟩
  have hb : ∀ v, ∀ b ∈ t.bodies v, b ∈ e.bodies v := fun v b hb ↦ ((ht.bodies v b).1 hb).2.1
  refine ⟨he.of_subset (ht.isLegal he.legal hes) ht.start_eq hb, fun v b hbt ↦ ?_, fun v hv ↦ ?_⟩
  · exact ((h.bodies v b).1 (hb v b hbt)).1
  · exact ht.isUseful he.legal.isProper hv

end Grammar

namespace Session

open Grammar

variable {s : Session} {c : UnitClosure} {u v : Symbol} {b : Body} {ws : List Symbol}

theorem exists_findUnitClosure (s : Session) : ∃ t c, s.findUnitClosure = .ok (t, c) ∧
    t.grammar = s.grammar ∧ t.helpers = s.helpers ∧
    ∀ v ∈ s.grammar, ∀ u, u ∈ c.members v ↔ s.grammar.UnitReaches v u := by
  obtain ⟨c, he, -, hc⟩ := exists_unitClosure s.grammar
  refine ⟨_, c, by rw [findUnitClosure, expect_eq_ok.2 he]; rfl, by simp, ?_, hc⟩
  refine helpers_note_of_forall fun a ha ↦ ?_
  obtain ⟨v, -, hv⟩ := List.mem_filterMap.1 ha
  dsimp only at hv
  split at hv
  · cases hv
    rfl
  · exact nomatch hv

namespace Amended

variable {done : List Symbol} {t : Session}

theorem mem_of_mem
    (h : Amended (fun v b ↦ b ∈ s.grammar.bodies v ∨ s.grammar.Inherits v b) done s t)
    (hb : b ∈ s.grammar.bodies v) : b ∈ t.grammar.bodies v := by
  by_cases hv : v ∈ done
  · exact (h.own v hv b).2 (.inl hb)
  · exact (h.rest v hv b).2 hb

theorem inherits (h : Amended (fun v b ↦ b ∈ s.grammar.bodies v ∨ s.grammar.Inherits v b) done s t)
    (hc : ∀ u, u ∈ c.members v ↔ s.grammar.UnitReaches v u) (hb : b ∈ t.grammar.inherited c v) :
    s.grammar.Inherits v b := by
  obtain ⟨u, hu, -, hbu, hunit, hbe, hstart⟩ := mem_inherited.1 hb
  rw [hc] at hu
  rw [h.start_eq] at hstart
  by_cases hud : u ∈ done
  · rcases (h.own u hud b).1 hbu with hbu | ⟨x, hx, hbx, -⟩
    · exact ⟨u, hu, hbu, hunit, hbe, hstart⟩
    · exact ⟨x, hu.trans hx, hbx, hunit, hbe, hstart⟩
  · exact ⟨u, hu, (h.rest u hud b).1 hbu, hunit, hbe, hstart⟩

theorem mem_or_inherited
    (h : Amended (fun v b ↦ b ∈ s.grammar.bodies v ∨ s.grammar.Inherits v b) done s t)
    (hc : ∀ u, u ∈ c.members v ↔ s.grammar.UnitReaches v u) (hb : s.grammar.Inherits v b) :
    b ∈ t.grammar.bodies v ∨ b ∈ t.grammar.inherited c v := by
  obtain ⟨u, hu, hb, hunit, hbe, hstart⟩ := hb
  by_cases he : u = v
  · exact .inl (h.mem_of_mem (he ▸ hb))
  · refine .inr (mem_inherited.2 ⟨u, (hc u).2 hu, he, h.mem_of_mem hb, hunit, hbe, ?_⟩)
    rwa [h.start_eq]

end Amended

theorem amended_copyBodies (hc : ∀ v ∈ s.grammar, ∀ u, u ∈ c.members v ↔
    s.grammar.UnitReaches v u) :
    Amended (fun v b ↦ b ∈ s.grammar.bodies v ∨ s.grammar.Inherits v b)
    s.grammar.sortedHeads.reverse s
      (s.grammar.sortedHeads.foldl (copyBodies c) s) := by
  refine amended_foldl_sortedHeads fun done t v hv hd h ↦ ?_
  refine h.cons_extend hv (t.grammar.news v (t.grammar.inherited c v)) (fun hnil ↦ ?_)
    (fun hne ↦ ?_) (fun b ↦ ?_)
  · rw [copyBodies, hnil]
  · rw [copyBodies]
    split
    · contradiction
    · exact ⟨grammar_commit .., helpers_commit_of_eq_nil rfl⟩
  · rw [mem_news]
    constructor
    · intro hy
      rcases hy with hb | hb
      · exact .inl (h.mem_of_mem hb)
      · by_cases hbt : b ∈ t.grammar.bodies v
        · exact .inl hbt
        · exact .inr ⟨(h.mem_or_inherited (hc v hv) hb).resolve_left hbt, hbt⟩
    · intro hy
      rcases hy with hb | ⟨hb, -⟩
      · exact .inl ((h.rest v hd b).1 hb)
      · exact .inr (h.inherits (hc v hv) hb)

theorem removeUnits_spec (s : Session) (v : Symbol) (ws : List Symbol) :
    let t := ws.foldl
      (fun s w ↦ s.commit (s.grammar.remove v [w]) .removeUnit [v, w] [] [⟨v, [w]⟩]) s
    t.grammar.start = s.grammar.start ∧ (∀ u, u ∈ t.grammar ↔ u ∈ s.grammar) ∧
    t.helpers = s.helpers ∧
      ∀ u b, b ∈ t.grammar.bodies u ↔ b ∈ s.grammar.bodies u ∧ (u = v → ∀ w ∈ ws, b ≠ [w]) := by
  induction ws generalizing s with
  | nil => simp
  | cons w ws ih =>
    obtain ⟨hs, hm, hh, hb⟩ :=
      ih (s.commit (s.grammar.remove v [w]) .removeUnit [v, w] [] [⟨v, [w]⟩])
    rw [grammar_commit] at hs hm hb
    refine ⟨hs, fun u ↦ (hm u).trans mem_remove,
      hh.trans (helpers_commit_of_eq_nil rfl), fun u b ↦ ?_⟩
    refine (hb u b).trans ?_
    rw [mem_bodies_remove, List.forall_mem_cons, and_assoc]
    refine and_congr_right fun _ ↦
      ⟨fun h hu ↦ ⟨h.1 hu, h.2 hu⟩, fun h ↦ ⟨fun hu ↦ (h hu).1, fun hu ↦ (h hu).2⟩⟩

theorem amended_removeUnits (s : Session) :
    Amended (fun v b ↦ b ∈ s.grammar.bodies v ∧ b.isUnit = false) s.grammar.sortedHeads.reverse s
      (s.grammar.sortedHeads.foldl removeUnits s) := by
  refine amended_foldl_sortedHeads fun done t v hv hd h ↦ ?_
  obtain ⟨hs, hm, hh, hb⟩ := removeUnits_spec t v ((t.grammar.bodies v).filterMap Body.unit?)
  refine h.cons hs hm (fun b ↦ ?_) (fun u hu b ↦ ?_) hh
  · refine (hb v b).trans ?_
    rw [h.rest v hd, Body.isUnit_eq_false]
    refine and_congr_right fun hbv ↦ ?_
    simp only [List.mem_filterMap, Body.unit?_eq_some, true_imp_iff]
    constructor
    · intro hw x hx hy
      subst hy
      exact hw x ⟨[x], (h.rest v hd _).2 hbv, rfl, hx⟩ rfl
    · intro hw x hy
      obtain ⟨-, -, -, hx⟩ := hy
      exact hw x hx
  · refine (hb u b).trans ?_
    simp [hu]

theorem protectStart_eq_ok
    (h : ∀ v, v ≠ s.grammar.start → ∀ b ∈ s.grammar.bodies v, s.grammar.start ∉ b) :
    s.protectStart = .ok s := by
  refine foldlM_eq_ok_self fun v hv ↦ ?_
  have hne : v ≠ s.grammar.start := of_decide_eq_true (List.mem_filter.1 hv).2
  have hnil : (s.grammar.bodies v).filter (s.grammar.start ∈ ·) = [] := by
    refine List.filter_eq_nil_iff.2 fun b hb ↦ ?_
    simp [h v hne b hb]
  rw [hnil]
  rfl

theorem exists_dropUnproductive (s : Session) : ∃ t, s.dropUnproductive = .ok t ∧
    t.helpers = s.helpers ∧
    ∃ p : Symbol → Bool, (∀ v, p v = true ↔ v = s.grammar.start ∨ s.grammar.IsGrounded v) ∧
      IsPruned (s.grammar.restrict p) t.grammar := by
  obtain ⟨productive, he, hp⟩ := exists_productive s.grammar
  let p (v : Symbol) : Bool := v = s.grammar.start || v ∈ productive
  let dropped := s.grammar.sortedHeads.filter fun v ↦ v ≠ s.grammar.start && v ∉ productive
  have hr : s.grammar.restrict (· ∉ dropped) = s.grammar.restrict p := by
    refine restrict_congr fun v hv ↦ ?_
    simp [dropped, p, hv]
  obtain ⟨q, heq, hq, hsame⟩ := exists_pruned (s.grammar.restrict (· ∉ dropped))
  have hok :
      s.dropUnproductive = .ok (if dropped.isEmpty && q.dropped.isEmpty && q.removed.isEmpty then s
        else s.commit q.grammar .dropUnproductive (dropped ++ q.dropped) []
        (dropped.flatMap s.grammar.productionsOf ++ q.removed)) :=
    bind_eq_ok.2 ⟨productive, expect_eq_ok.2 he, bind_eq_ok.2 ⟨q, expect_eq_ok.2 heq, rfl⟩⟩
  refine ⟨_, hok, helpers_commit_unless rfl, p, fun v ↦ by simp [p, hp], ?_⟩
  rw [grammar_commit_unless fun h ↦ ?_, ← hr]
  · exact hq
  · simp only [Bool.and_eq_true, List.isEmpty_iff] at h
    rw [hsame h.1.2 h.2, h.1.1]
    exact (restrict_eq_self fun v _ ↦ by simp).symm

theorem grammar_dropUnreachable (s : Session) :
    s.dropUnreachable.grammar = s.grammar.restrict (· ∈ s.grammar.reachable) := by
  rw [dropUnreachable]
  split
  · rename_i hnil
    refine (restrict_eq_self fun v hv ↦ ?_).symm
    have h := List.filter_eq_nil_iff.1 hnil v (mem_sortedHeads.2 hv)
    simpa using h
  · rw [grammar_commit]
    refine restrict_congr fun v hv ↦ ?_
    simp [hv]

theorem helpers_dropUnreachable (s : Session) : s.dropUnreachable.helpers = s.helpers := by
  rw [dropUnreachable]
  split
  · rfl
  · exact helpers_commit_of_eq_nil rfl

def expandUnits (s : Session) : Except Halt Session := do
  let (s, closure) ← s.findUnitClosure
  let s := s.grammar.sortedHeads.foldl (copyBodies closure) s
  return s.grammar.sortedHeads.foldl removeUnits s

def clear (s : Session) : Except Halt Session := do
  return (← s.dropUnproductive).dropUnreachable

theorem eliminateUnits_eq (s : Session) :
    s.eliminateUnits = (s.expandUnits >>= fun t ↦ t.protectStart >>= clear) := by
  unfold eliminateUnits expandUnits
  cases s.findUnitClosure <;> rfl

theorem exists_expandUnits (s : Session) :
    ∃ t, s.expandUnits = .ok t ∧ t.helpers = s.helpers ∧ IsUnitExpanded s.grammar t.grammar := by
  obtain ⟨t₁, c, he₁, hg₁, hh₁, hc⟩ := exists_findUnitClosure s
  let t₂ := t₁.grammar.sortedHeads.foldl (copyBodies c) t₁
  let t₃ := t₂.grammar.sortedHeads.foldl removeUnits t₂
  have h₂ : Amended _ _ t₁ t₂ := amended_copyBodies (hg₁.symm ▸ hc)
  have h₃ : Amended _ _ t₂ t₃ := amended_removeUnits t₂
  refine ⟨t₃, bind_eq_ok.2 ⟨(t₁, c), he₁, rfl⟩, ?_, ?_⟩
  · rw [h₃.helpers_eq, h₂.helpers_eq, hh₁]
  · rw [← hg₁]
    refine ⟨h₃.start_eq.trans h₂.start_eq, fun v ↦ (h₃.mem v).trans (h₂.mem v), fun v b ↦ ?_⟩
    rw [h₃.bodies_iff fun u b h ↦ mem_of_mem_bodies h.1, h₂.bodies_iff, and_comm]
    exact fun u b h ↦ h.elim mem_of_mem_bodies Inherits.mem

theorem exists_clear (hs : s.grammar.start ∈ s.grammar) :
    ∃ t, s.clear = .ok t ∧ t.helpers = s.helpers ∧ IsCleared s.grammar t.grammar := by
  obtain ⟨t, he, hh, p, hp, hpruned⟩ := exists_dropUnproductive s
  refine ⟨t.dropUnreachable, bind_eq_ok.2 ⟨t, he, rfl⟩, ?_, ?_⟩
  · rw [helpers_dropUnreachable, hh]
  · rw [grammar_dropUnreachable]
    exact hpruned.isCleared hs hp

theorem exists_eliminateUnits (hg : s.grammar.IsEpsilonFree)
    (hs : s.grammar.IsProductive s.grammar.start) :
    ∃ t e, s.eliminateUnits = .ok t ∧ t.helpers = s.helpers ∧
      IsUnitExpanded s.grammar e ∧ IsTrimmed e t.grammar := by
  obtain ⟨x, hx, hhx, hexp⟩ := exists_expandUnits s
  have hfree := hexp.isEpsilonFree hg
  obtain ⟨t, ht, hht, hclear⟩ := exists_clear hfree.legal.start_mem
  have hgrounded : x.grammar.IsGrounded x.grammar.start := by
    obtain ⟨w, hw⟩ := hs
    exact IsProductive.isGrounded
      ⟨w, hexp.start_eq ▸ (hexp.derives_iff hg.legal hg.isCopyable).2 hw⟩
  refine ⟨t, x.grammar, ?_, hht.trans hhx, hexp, hclear.isTrimmed hgrounded⟩
  rw [eliminateUnits_eq]
  refine bind_eq_ok.2 ⟨x, hx, bind_eq_ok.2 ⟨x, ?_, ht⟩⟩
  exact protectStart_eq_ok fun v _ b hb ↦ hfree.start_not_mem hb

end Session

end ChomskyNormalForm
