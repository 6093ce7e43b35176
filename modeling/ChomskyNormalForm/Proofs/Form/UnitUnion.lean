import ChomskyNormalForm.Proofs.Form.UnitFree

namespace ChomskyNormalForm

namespace Grammar

variable {g e t t' : Grammar} {u v : Symbol} {b : Body}

def unitReachable (g : Grammar) (v : Symbol) : List Symbol :=
  explore g.unitTargets (g.heads.length + 1) [v] [v]

theorem mem_unitReachable : u ∈ g.unitReachable v ↔ g.UnitReaches v u :=
  mem_explore fun _ _ hx ↦ (mem_unitTargets.1 hx).2.2

/-- Each variable has the bodies, single variables apart, of all variables that unit productions
lead to from it. The empty word stays with its owner. -/
def unitUnion (g : Grammar) : Grammar :=
  ⟨g.start, .ofEntries (g.heads.map fun v ↦ (v, (g.unitReachable v).flatMap fun u ↦
    (g.bodies u).filter fun b ↦ !b.isUnit && (u = v || !b.isEpsilon)))⟩

theorem mem_unitUnion : v ∈ g.unitUnion ↔ v ∈ g := by
  have h : v ∈ g.unitUnion ↔ v ∈ Rules.ofEntries _ := .rfl
  rw [h, Rules.mem_ofEntries]
  simp [mem_heads]

theorem mem_bodies_unitUnion : b ∈ g.unitUnion.bodies v ↔
    ∃ u, g.UnitReaches v u ∧ b ∈ g.bodies u ∧ b.isUnit = false ∧ (u = v ∨ b ≠ Body.epsilon) := by
  have h : b ∈ g.unitUnion.bodies v ↔ b ∈ (Rules.ofEntries _).bodies v := .rfl
  rw [h, Rules.mem_bodies_ofEntries]
  simp only [List.mem_map, mem_heads]
  constructor
  · rintro ⟨_, ⟨x, -, rfl⟩, rfl, hb⟩
    simp only [List.mem_flatMap, mem_unitReachable, List.mem_filter, Bool.and_eq_true,
      Bool.not_eq_true', Bool.or_eq_true, decide_eq_true_eq, Body.isEpsilon_eq_false] at hb
    exact hb
  · rintro ⟨u, hr, hb, hunit, hown⟩
    refine ⟨_, ⟨v, hr.mem (mem_of_mem_bodies hb), rfl⟩, rfl, ?_⟩
    simp only [List.mem_flatMap, mem_unitReachable, List.mem_filter, Bool.and_eq_true,
      Bool.not_eq_true', Bool.or_eq_true, decide_eq_true_eq, Body.isEpsilon_eq_false]
    exact ⟨u, hr, hb, hunit, hown⟩

theorem IsEpsilonFree.isUnitExpanded_unitUnion (hg : g.IsEpsilonFree) :
    g.IsUnitExpanded g.unitUnion where
  start_eq := rfl
  mem _ := mem_unitUnion
  bodies v b := by
    rw [mem_bodies_unitUnion]
    constructor
    · intro ⟨u, hr, hb, hunit, hown⟩
      refine ⟨hunit, ?_⟩
      by_cases huv : u = v
      · exact .inl (huv ▸ hb)
      · exact .inr ⟨u, hr, hb, hunit, hown.resolve_left huv, .inr (hg.start_not_mem hb)⟩
    · intro ⟨hunit, h⟩
      rcases h with hb | ⟨u, hr, hb, -, hne, -⟩
      · exact ⟨v, .refl, hb, hunit, .inl rfl⟩
      · exact ⟨u, hr, hb, hunit, .inr hne⟩

theorem IsGrounded.mono (h : ∀ v, ∀ b ∈ g.bodies v, b ∈ e.bodies v) (hv : g.IsGrounded v) :
    e.IsGrounded v := by
  induction hv with
  | intro hb _ ih => exact .intro (h _ _ hb) ih

theorem IsTrimmed.congr (h : IsTrimmed g t) (hs : e.start = g.start)
    (hb : ∀ v b, b ∈ e.bodies v ↔ b ∈ g.bodies v) : IsTrimmed e t := by
  have hgr : ∀ v, e.IsGrounded v ↔ g.IsGrounded v := fun v ↦
    ⟨.mono fun v b ↦ (hb v b).1, .mono fun v b ↦ (hb v b).2⟩
  refine ⟨h.start_eq.trans hs.symm, fun v ↦ ?_, fun v b ↦ ?_⟩
  · rw [h.mem, hgr]
  · simp only [h.bodies, hb, hgr]

theorem IsTrimmed.mem_of_mem (h : IsTrimmed g t) (h' : IsTrimmed g t') (hv : v ∈ t) : v ∈ t' := by
  obtain ⟨hgr, hr⟩ := (h.mem v).1 hv
  -- along the path from the start in `t`, all of which is in `t'` too
  induction hr with
  | refl => exact (h'.mem _).2 ⟨hgr, h.start_eq ▸ h'.start_eq ▸ .refl⟩
  | tail _ hm ih =>
    have hu := ih hm.mem ((h.mem _).1 hm.mem).1
    obtain ⟨b, hb, hx⟩ := hm
    have hb' := (h'.bodies _ b).2 ⟨hu, ((h.bodies _ b).1 hb).2⟩
    exact h'.closed ⟨b, hb', hx⟩

theorem IsTrimmed.agrees (h : IsTrimmed g t) (h' : IsTrimmed g t') : t.agrees t' = true := by
  have hm : ∀ v, v ∈ t ↔ v ∈ t' := fun v ↦ ⟨h.mem_of_mem h', h'.mem_of_mem h⟩
  refine agrees_iff.2 ⟨h.start_eq.trans h'.start_eq.symm, fun v ↦ ⟨hm v, fun b ↦ ?_⟩⟩
  rw [h.bodies, h'.bodies, hm]

end Grammar

namespace Session

variable {s : Session}

/-- Behind a start that stands in no body, and with the empty word at most there, the elimination of
unit productions is the union along them, trimmed. It keeps the words of every variable that is
left. -/
theorem eliminateUnits_agrees_trimmed (hc : s.grammar.check = .ok ())
    (hoff : ∀ v, ∀ b ∈ s.grammar.bodies v, s.grammar.start ∉ b)
    (heps : ∀ v, Body.epsilon ∈ s.grammar.bodies v → v = s.grammar.start)
    (hw : ∃ w, s.grammar.Generates w) :
    ∃ t u r, s.eliminateUnits = .ok t ∧ (ofGrammar s.grammar.unitUnion).trim = .ok (u, r) ∧
      t.grammar.agrees r.grammar = true ∧
      ∀ v ∈ t.grammar, ∀ w, t.grammar.Derives v w ↔ s.grammar.Derives v w := by
  have hlegal := Grammar.check_eq_ok_iff.1 hc
  have hg : s.grammar.IsEpsilonFree :=
    ⟨hlegal, fun v ⟨b, hb, hs⟩ ↦ hoff v b hb (Body.mem_vars.1 hs).1, heps⟩
  obtain ⟨t, e, ht, -, hexp, htrim⟩ := exists_eliminateUnits hg hw
  obtain ⟨u, r, hr, -, -, hrtrim, -⟩ := exists_trim (ofGrammar s.grammar.unitUnion)
  have hunion := hg.isUnitExpanded_unitUnion
  have htrim' : s.grammar.unitUnion.IsTrimmed t.grammar := by
    refine htrim.congr hexp.start_eq.symm fun v b ↦ ?_
    rw [hunion.bodies, hexp.bodies]
  refine ⟨t, u, r, ht, hr, htrim'.agrees hrtrim, fun v hv w ↦ ?_⟩
  rw [htrim.derives_iff hv, hexp.derives_iff hlegal hg.isCopyable]

end Session

def Grammar.knotted : Grammar :=
  ⟨.var "S", .ofEntries [(.var "S", [[.var "A"], [.epsilon]]),
    (.var "A", [[.var "B"], [.terminal "a", .var "A"]]),
    (.var "B", [[.var "A"], [.var "C"], [.terminal "b"]]),
    (.var "C", [[.var "C", .var "C"], [.var "D"]]),
    (.var "D", [[.var "C"]])]⟩

theorem Session.eliminateUnits_agrees_trimmed_knotted : Grammar.knotted.check = .ok () ∧
    (∀ v, ∀ b ∈ Grammar.knotted.bodies v, Grammar.knotted.start ∉ b) ∧
    (∀ v, Body.epsilon ∈ Grammar.knotted.bodies v → v = Grammar.knotted.start) ∧
    Grammar.knotted.Generates [] ∧
    ∃ t u r, (ofGrammar .knotted).eliminateUnits = .ok t ∧
    (ofGrammar Grammar.knotted.unitUnion).trim = .ok (u, r) ∧
      t.grammar.agrees r.grammar = true ∧
      ∀ v ∈ t.grammar, ∀ w, t.grammar.Derives v w ↔ Grammar.knotted.Derives v w := by
  have hoff : ∀ v, ∀ b ∈ Grammar.knotted.bodies v, Grammar.knotted.start ∉ b :=
    Grammar.forall_mem_bodies (by decide)
  have heps : ∀ v, ∀ b ∈ Grammar.knotted.bodies v, b = Body.epsilon → v = Grammar.knotted.start :=
    Grammar.forall_mem_bodies (by decide)
  have hw : Grammar.knotted.Generates [] := ⟨[.epsilon], by decide, .epsilon .nil⟩
  exact ⟨rfl, hoff, fun v hb ↦ heps v _ hb rfl, hw,
    eliminateUnits_agrees_trimmed (s := .ofGrammar .knotted) rfl hoff
    (fun v hb ↦ heps v _ hb rfl) ⟨[], hw⟩⟩

end ChomskyNormalForm
