import ChomskyNormalForm.Proofs.Form.Isolation

namespace ChomskyNormalForm

namespace Grammar

structure IsIsolated (g : Grammar) : Prop extends IsUnitFree g where
  isVar : ∀ v, ∀ b ∈ g.bodies v, 2 ≤ b.length → ∀ s ∈ b, s.isVar = true

theorem IsIsolated.terminal_not_mem {g : Grammar} (hg : g.IsIsolated) :
    ∀ v, ∀ b ∈ g.bodies v, 2 ≤ b.length → ∀ t, .terminal t ∉ b :=
  fun v b hb hl _ ht ↦ nomatch hg.isVar v b hb hl _ ht

end Grammar

namespace Isolating

variable {s : Session} {a : Allocator} {i : Isolation} {t : String} {b c : Body}
  {u v : Symbol} {w : Word}

theorem mem_bodies_iff (h : Isolating s a (fun v b ↦ b ∈ s.grammar.bodies v) i)
    (hv : v ∈ s.grammar) :
    b ∈ i.session.grammar.bodies v ↔ ∃ c ∈ s.grammar.bodies v, b = c.isolated i.helpers :=
  h.bodies.mem_bodies_all hv

theorem derives_helper (h : Isolating s a (fun v b ↦ b ∈ s.grammar.bodies v) i)
    (hv : (t, v) ∈ i.helpers) :
    i.session.grammar.Derives v t.toList := by
  obtain ⟨-, -, hb⟩ := h.helper _ hv
  exact Grammar.derives_of_mem ((hb _).2 rfl) (Body.denotes_singleton.2 rfl)

theorem denotes_of_isolated {I J : Interpretation}
    (h : Isolating s a (fun v b ↦ b ∈ s.grammar.bodies v) i) (hc : c ∈ s.grammar.bodies v)
    (hI : ∀ u ∈ Body.vars c, ∀ w, I u w → J u w)
    (ht : ∀ e ∈ i.helpers, ∀ w, I e.2 w → w = e.1.toList)
    (hw : Body.Denotes I (c.isolated i.helpers) w) :
    Body.Denotes J c w := by
  by_cases hl : c.length < 2
  · rw [Body.isolated_of_length_lt hl] at hw
    exact hw.mono hI
  · have hl : 2 ≤ c.length := by omega
    rw [Body.isolated_of_le_length hl] at hw
    refine hw.of_map fun r hr w hrw ↦ ?_
    cases r with
    | terminal r =>
      obtain ⟨x, hx⟩ := h.covered v c hc hl r hr
      rw [h.functional.stand_terminal hx, Symbol.denotes_var (h.helper _ hx).1.1] at hrw
      exact ht _ hx w hrw
    | var name => exact hI _ (Body.mem_vars.2 ⟨hr, rfl⟩) w hrw
    | epsilon => exact hrw
    | foreign r => exact hrw

theorem denotes_isolated {I : Interpretation}
    (h : Isolating s a (fun v b ↦ b ∈ s.grammar.bodies v) i) (hc : c ∈ s.grammar.bodies v)
    (ht : ∀ e ∈ i.helpers, I e.2 e.1.toList) (hw : Body.Denotes I c w) :
    Body.Denotes I (c.isolated i.helpers) w := by
  by_cases hl : c.length < 2
  · rwa [Body.isolated_of_length_lt hl]
  · have hl : 2 ≤ c.length := by omega
    rw [Body.isolated_of_le_length hl]
    refine hw.map fun r hr w hrw ↦ ?_
    cases r with
    | terminal r =>
      obtain ⟨x, hx⟩ := h.covered v c hc hl r hr
      rw [h.functional.stand_terminal hx, Symbol.denotes_var (h.helper _ hx).1.1, hrw]
      exact ht _ hx
    | var name => exact hrw
    | epsilon => exact hrw
    | foreign r => exact hrw

/-- Isolation keeps the words of every variable that was there. -/
theorem derives_iff (h : Isolating s a (fun v b ↦ b ∈ s.grammar.bodies v) i)
    (hg : s.grammar.IsLegal) (hv : v ∈ s.grammar) : i.session.grammar.Derives v w ↔
    s.grammar.Derives v w := by
  constructor
  · intro hw
    -- helpers have to be followed along, for they stand in bodies beside the variables that were
    -- there
    refine (Grammar.derives_least
      (I := fun v w ↦ (v ∈ s.grammar → s.grammar.Derives v w) ∧
        ∀ t, (t, v) ∈ i.helpers → w = t.toList)
      (fun v b hb w hw ↦ ⟨fun hv ↦ ?_, fun t ht ↦ ?_⟩) hw).1 hv
    · obtain ⟨c, hc, rfl⟩ := (h.mem_bodies_iff hv).1 hb
      refine Grammar.derives_of_mem hc (h.denotes_of_isolated hc (fun u hu w hI ↦ ?_)
        (fun e he w hI ↦ ?_) hw)
      · exact hI.1 (hg.closed v u ⟨c, hc, hu⟩)
      · exact hI.2 e.1 he
    · obtain rfl := ((h.helper _ ht).2.2 b).1 hb
      exact Body.denotes_singleton.1 hw
  · refine Grammar.derives_induct (fun v c hc w hw ↦ ?_)
    have hcw : Body.Denotes i.session.grammar.Derives c w := hw.mono fun _ _ _ ↦ And.right
    refine Grammar.derives_of_mem ((h.mem_bodies_iff (Grammar.mem_of_mem_bodies hc)).2 ⟨c, hc, rfl⟩)
      ?_
    exact h.denotes_isolated hc (fun e he ↦ h.derives_helper he) hcw

theorem mem_isolated (h : Isolating s a (fun v b ↦ b ∈ s.grammar.bodies v) i)
    (hc : c ∈ s.grammar.bodies v) (hu : u ∈ c.isolated i.helpers) :
    u ∈ c ∨ ∃ t, (t, u) ∈ i.helpers := by
  by_cases hl : c.length < 2
  · rw [Body.isolated_of_length_lt hl] at hu
    exact .inl hu
  · have hl : 2 ≤ c.length := by omega
    rw [Body.isolated_of_le_length hl] at hu
    obtain ⟨r, hr, rfl⟩ := List.mem_map.1 hu
    cases r with
    | terminal r =>
      obtain ⟨x, hx⟩ := h.covered v c hc hl r hr
      rw [h.functional.stand_terminal hx]
      exact .inr ⟨r, hx⟩
    | var name => exact .inl hr
    | epsilon => exact .inl hr
    | foreign r => exact .inl hr

theorem mentions (h : Isolating s a (fun v b ↦ b ∈ s.grammar.bodies v) i)
    (hm : s.grammar.Mentions v u) :
    i.session.grammar.Mentions v u := by
  obtain ⟨c, hc, hu⟩ := hm
  rw [Body.mem_vars] at hu
  refine ⟨_, (h.mem_bodies_iff (Grammar.mem_of_mem_bodies hc)).2 ⟨c, hc, rfl⟩,
    Body.mem_vars.2 ⟨?_, hu.2⟩⟩
  by_cases hl : c.length < 2
  · rw [Body.isolated_of_length_lt hl]
    exact hu.1
  · rw [Body.isolated_of_le_length (by omega)]
    exact List.mem_map.2 ⟨u, hu.1, TerminalHelpers.stand_of_isVar hu.2⟩

theorem exists_mem_bodies (h : Isolating s a (fun v b ↦ b ∈ s.grammar.bodies v) i)
    (hb : b ∈ i.session.grammar.bodies v) : (∃ c ∈ s.grammar.bodies v, b = c.isolated i.helpers) ∨
      ∃ t, (t, v) ∈ i.helpers ∧ b = [.terminal t] ∧
        ∃ x, ∃ c ∈ s.grammar.bodies x, 2 ≤ c.length ∧ .terminal t ∈ c := by
  by_cases hv : v ∈ s.grammar
  · exact .inl ((h.mem_bodies_iff hv).1 hb)
  · obtain ⟨t, ht⟩ := ((h.mem v).1 (Grammar.mem_of_mem_bodies hb)).resolve_left hv
    exact .inr ⟨t, ht, ((h.helper _ ht).2.2 b).1 hb, (h.origin _ ht).resolve_left hv⟩

theorem isLegal (h : Isolating s a (fun v b ↦ b ∈ s.grammar.bodies v) i) (hg : s.grammar.IsLegal) :
    i.session.grammar.IsLegal where
  start_mem := (h.mem _).2 (.inl (h.start_eq ▸ hg.start_mem))
  head v hv := by
    rcases (h.mem v).1 hv with hv | ⟨t, ht⟩
    · exact hg.head v hv
    · exact (h.helper _ ht).1
  body v b hb := by
    rcases h.exists_mem_bodies hb with ⟨c, hc, rfl⟩ | ⟨t, -, rfl, x, c, hc, hl, ht⟩
    · by_cases hce : c = Body.epsilon
      · rw [hce]
        exact .inl rfl
      · have hcl := (hg.body v c hc).isEpsilon_eq_false hce
        refine .inr ⟨fun hnil ↦ (hg.body v c hc).ne_nil ?_, fun r hr ↦ ?_⟩
        · rw [← List.length_eq_zero_iff, ← Body.length_isolated i.helpers, hnil, List.length_nil]
        · rcases h.mem_isolated hc hr with hr | ⟨t, ht⟩
          · exact hcl r hr
          · exact (h.helper _ ht).1.2
    · have hce : c ≠ Body.epsilon := by
        intro hx
        subst hx
        exact absurd hl (by decide)
      refine .inr ⟨by simp, fun r hr ↦ ?_⟩
      rw [List.mem_singleton.1 hr]
      exact (hg.body x c hc).isEpsilon_eq_false hce _ ht
  closed v u hm := by
    obtain ⟨b, hb, hu⟩ := hm
    rw [Body.mem_vars] at hu
    rcases h.exists_mem_bodies hb with ⟨c, hc, rfl⟩ | ⟨t, -, rfl, -⟩
    · rcases h.mem_isolated hc hu.1 with huc | ⟨t, ht⟩
      · exact (h.mem u).2 (.inl (hg.closed v u ⟨c, hc, Body.mem_vars.2 ⟨huc, hu.2⟩⟩))
      · exact (h.mem u).2 (.inr ⟨t, ht⟩)
    · rw [List.mem_singleton.1 hu.1] at hu
      exact nomatch hu.2

theorem isEpsilonFree (h : Isolating s a (fun v b ↦ b ∈ s.grammar.bodies v) i)
    (hg : s.grammar.IsEpsilonFree) :
    i.session.grammar.IsEpsilonFree where
  legal := h.isLegal hg.legal
  start_off v hm := by
    obtain ⟨b, hb, hu⟩ := hm
    rw [h.start_eq, Body.mem_vars] at hu
    rcases h.exists_mem_bodies hb with ⟨c, hc, rfl⟩ | ⟨t, -, rfl, -⟩
    · rcases h.mem_isolated hc hu.1 with huc | ⟨t, ht⟩
      · exact hg.start_not_mem hc huc
      · exact (h.helper _ ht).2.1 rfl
    · rw [List.mem_singleton.1 hu.1] at hu
      exact nomatch hu.2
  epsilon v he := by
    rcases h.exists_mem_bodies he with ⟨c, hc, hec⟩ | ⟨t, -, he, -⟩
    · have hl : c.length < 2 := by
        rw [← Body.length_isolated i.helpers, ← hec]
        decide
      rw [Body.isolated_of_length_lt hl] at hec
      exact (hg.epsilon v (hec ▸ hc)).trans h.start_eq.symm
    · exact nomatch he

theorem reaches (h : Isolating s a (fun v b ↦ b ∈ s.grammar.bodies v) i)
    (hr : s.grammar.Reaches v u) :
    i.session.grammar.Reaches v u :=
  hr.mono fun _ _ hm ↦ (h.mentions hm).reaches

theorem isUseful (h : Isolating s a (fun v b ↦ b ∈ s.grammar.bodies v) i) (hg : s.grammar.IsLegal)
    (hu : ∀ v ∈ s.grammar, s.grammar.IsUseful v) (hv : v ∈ i.session.grammar) :
    i.session.grammar.IsUseful v := by
  have hreach : ∀ x ∈ s.grammar, i.session.grammar.Reaches i.session.grammar.start x := by
    intro x hx
    rw [h.start_eq]
    exact h.reaches (hu x hx).1
  by_cases hvs : v ∈ s.grammar
  · obtain ⟨w, hw⟩ := (hu v hvs).2
    exact ⟨hreach v hvs, w, (h.derives_iff hg hvs).2 hw⟩
  · obtain ⟨t, ht⟩ := ((h.mem v).1 hv).resolve_left hvs
    obtain ⟨x, c, hc, hl, htc⟩ := (h.origin _ ht).resolve_left hvs
    have hx : x ∈ s.grammar := Grammar.mem_of_mem_bodies hc
    have hvc : v ∈ c.isolated i.helpers := by
      rw [Body.isolated_of_le_length hl]
      exact List.mem_map.2 ⟨_, htc, h.functional.stand_terminal ht⟩
    have hm : i.session.grammar.Mentions x v :=
      ⟨_, (h.mem_bodies_iff hx).2 ⟨c, hc, rfl⟩, Body.mem_vars.2 ⟨hvc, (h.helper _ ht).1.1⟩⟩
    exact ⟨(hreach x hx).tail hm, _, h.derives_helper ht⟩

theorem terminal_not_mem (h : Isolating s a (fun v b ↦ b ∈ s.grammar.bodies v) i)
    (hb : b ∈ i.session.grammar.bodies v) (hl : 2 ≤ b.length) : .terminal t ∉ b := by
  rcases h.exists_mem_bodies hb with ⟨c, hc, rfl⟩ | ⟨r, -, rfl, -⟩
  · rw [Body.length_isolated] at hl
    rw [Body.isolated_of_le_length hl]
    exact h.terminal_not_mem_map (h.covered v c hc) hl
  · exact absurd hl (by simp)

theorem isIsolated (h : Isolating s a (fun v b ↦ b ∈ s.grammar.bodies v) i)
    (hg : s.grammar.IsUnitFree) :
    i.session.grammar.IsIsolated where
  toIsEpsilonFree := h.isEpsilonFree hg.toIsEpsilonFree
  useful v hv := h.isUseful hg.legal hg.useful hv
  isUnit v b hb := by
    rcases h.exists_mem_bodies hb with ⟨c, hc, rfl⟩ | ⟨t, -, rfl, -⟩
    · by_cases hl : c.length < 2
      · rw [Body.isolated_of_length_lt hl]
        exact hg.isUnit v c hc
      · refine Body.isUnit_eq_false.2 fun u _ he ↦ ?_
        have hlen := Body.length_isolated i.helpers c
        rw [he, List.length_singleton] at hlen
        omega
    · rfl
  isVar v b hb hl r hr := by
    have hbe : b ≠ Body.epsilon := by
      intro hx
      subst hx
      exact absurd hl (by decide)
    have hleg := ((h.isLegal hg.legal).body v b hb).isEpsilon_eq_false hbe r hr
    cases r with
    | terminal t => exact absurd hr (h.terminal_not_mem hb hl)
    | var name => rfl
    | epsilon => exact absurd hleg id
    | foreign t => exact absurd hleg id

end Isolating

theorem Session.isolateTerminals_eq_self {s : Session} {a : Allocator}
    (h : ∀ v, ∀ b ∈ s.grammar.bodies v, 2 ≤ b.length → ∀ t, .terminal t ∉ b) :
    s.isolateTerminals a = .ok (s, a) := by
  have hbody : ∀ v, ∀ b ∈ s.grammar.bodies v, Isolation.body v ⟨s, a, s.grammar.terminalHelpers⟩ b =
      .ok ⟨s, a, s.grammar.terminalHelpers⟩ := by
    intro v b hb
    refine if_pos ?_
    rw [Bool.or_eq_true, decide_eq_true_eq, List.isEmpty_iff, List.eq_nil_iff_forall_not_mem]
    by_cases hl : b.length < 2
    · exact .inl hl
    · refine .inr fun t ht ↦ h v b hb (by omega) t ?_
      exact Body.mem_terminals.1 ht
  have hfold :=
    foldlM_eq_ok_self (l := s.grammar.sortedHeads) (s := Isolation.mk s a s.grammar.terminalHelpers)
    (f := fun i v ↦ (i.session.grammar.bodies v).foldlM (Isolation.body v) i)
    fun v _ ↦ foldlM_eq_ok_self (hbody v)
  rw [isolateTerminals, hfold]
  rfl

end ChomskyNormalForm
