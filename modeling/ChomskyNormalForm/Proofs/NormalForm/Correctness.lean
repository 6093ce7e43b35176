import ChomskyNormalForm.Proofs.Form.Normal

namespace ChomskyNormalForm.Grammar

variable {g : Grammar} {n : Normalization} {v : Symbol}

theorem IsLegal.text_mem_names_iff (hg : g.IsLegal) (hv : v.isVar = true) :
    v.text ∈ g.names ↔ v ∈ g := by
  constructor
  · intro h
    obtain ⟨u, hu, htext⟩ := List.mem_map.1 h
    have hrank : u.rank = v.rank := by
      have huv := (hg.head u hu).1
      cases u with
      | var name =>
        cases v with
        | var name' => rfl
        | terminal a => exact nomatch hv
        | epsilon => exact nomatch hv
        | foreign t => exact nomatch hv
      | terminal a => exact nomatch huv
      | epsilon => exact nomatch huv
      | foreign t => exact nomatch huv
    exact Symbol.ext_rank_text hrank htext ▸ hu
  · exact mem_names

def balanced : Grammar :=
  ⟨.var "S", .ofEntries [(.var "S", [[.terminal "a", .var "S", .terminal "b"], [.epsilon]])]⟩

theorem balanced_generates : balanced.Generates [] := ⟨[.epsilon], by decide, .epsilon .nil⟩

theorem exists_normalize_balanced : ∃ n, balanced.normalize = .ok n ∧ n.isInfinite = some true := by
  have h : balanced.normalize.toOption.bind (·.isInfinite) = some true := by decide +kernel
  cases hn : balanced.normalize with
  | ok n =>
    rw [hn] at h
    exact ⟨n, rfl, h⟩
  | error f =>
    rw [hn] at h
    exact nomatch h

/-- Normalization keeps the words of the start, and of every other variable that was there all but
the empty one. The new start and the helpers have names that no variable had. -/
theorem normalize_keeps_words (hc : g.check = .ok ()) (hw : ∃ w, g.Generates w)
    (hn : g.normalize = .ok n) :
    (∀ w, n.grammar.Generates w ↔ g.Generates w) ∧
    (∀ v ∈ n.grammar, v.text ∈ g.names → ∀ w, n.grammar.Derives v w ↔ g.Derives v w ∧ w ≠ []) ∧
    n.grammar.start.text ∉ g.names ∧ (∀ v ∈ n.session.helpers, v.text ∉ g.names) ∧
    ∀ v ∈ n.grammar, v ∈ n.trimmed ∧ v ∈ g ∨ v = n.grammar.start ∨ v ∈ n.session.helpers := by
  have hg := check_eq_ok_iff.1 hc
  have h := isNormalized_of_normalize hc hw hn
  have hlegal := h.isBinary.legal
  refine ⟨h.generates_iff, fun v hv hname ↦ ?_, fun hname ↦ ?_, fun v hv hname ↦ ?_, fun v hv ↦ ?_⟩
  · exact h.derives_iff v hv ((hg.text_mem_names_iff (hlegal.head v hv).1).1 hname)
  · exact h.start_not_mem ((hg.text_mem_names_iff (hlegal.head _ hlegal.start_mem).1).1 hname)
  · exact (h.helper v hv).2 ((hg.text_mem_names_iff (h.helper v hv).1).1 hname)
  · exact (h.mem v hv).imp_left fun hvt ↦ ⟨hvt, h.trimmed.subset hvt⟩

theorem normalize_keeps_words_balanced : ∃ n, balanced.normalize = .ok n ∧
    (∀ w, n.grammar.Generates w ↔ balanced.Generates w) ∧
    (∀ v ∈ n.grammar, v.text ∈ balanced.names → ∀ w, n.grammar.Derives v w ↔
      balanced.Derives v w ∧ w ≠ []) ∧
    n.grammar.start.text ∉ balanced.names ∧ (∀ v ∈ n.session.helpers, v.text ∉ balanced.names) ∧
    ∀ v ∈ n.grammar, v ∈ n.trimmed ∧ v ∈ balanced ∨ v = n.grammar.start ∨
    v ∈ n.session.helpers := by
  obtain ⟨n, hn, -⟩ := exists_normalize_balanced
  exact ⟨n, hn, normalize_keeps_words rfl ⟨[], balanced_generates⟩ hn⟩

theorem IsUseful.bodies_ne_nil (h : g.IsUseful v) : g.bodies v ≠ [] := by
  obtain ⟨-, w, b, hb, -⟩ := h
  exact List.ne_nil_of_mem hb

/-- Only the names for helpers may run out. All else ends in a legal grammar whose bodies are of the
normal forms and whose variables are all reached from the start and derive some word. -/
theorem normalize_shape (hc : g.check = .ok ()) :
    ((∃ n, g.normalize = .ok n) ∨ ∃ limit, g.normalize = .error (.namesExhausted limit)) ∧
    ∀ n, g.normalize = .ok n → (∃ w, g.Generates w) → n.grammar.check = .ok () ∧
      (∀ v, ∀ b ∈ n.grammar.bodies v, n.grammar.IsNormalBody v b) ∧
      (∀ v u, n.grammar.Mentions v u → n.grammar.bodies u ≠ []) ∧
      ∀ v ∈ n.grammar, n.grammar.IsUseful v := by
  refine ⟨normalize_eq_ok_or_exhausted (check_eq_ok_iff.1 hc), fun n hn hw ↦ ?_⟩
  have h := (isNormalized_of_normalize hc hw hn).isBinary
  refine ⟨check_eq_ok_iff.2 h.legal, fun v b hb ↦ h.isNormalBody hb, fun v u hu ↦ ?_, h.useful⟩
  exact (h.useful u (h.legal.closed v u hu)).bodies_ne_nil

theorem normalize_shape_balanced : balanced.check = .ok () ∧ ∃ n, balanced.normalize = .ok n ∧
    n.grammar.check = .ok () ∧ (∀ v, ∀ b ∈ n.grammar.bodies v, n.grammar.IsNormalBody v b) ∧
    (∀ v u, n.grammar.Mentions v u → n.grammar.bodies u ≠ []) ∧
    ∀ v ∈ n.grammar, n.grammar.IsUseful v := by
  obtain ⟨n, hn, -⟩ := exists_normalize_balanced
  exact ⟨rfl, n, hn, (normalize_shape rfl).2 n hn ⟨[], balanced_generates⟩⟩

end ChomskyNormalForm.Grammar
