import ChomskyNormalForm.Proofs.Form.EpsilonFree

namespace ChomskyNormalForm

namespace Grammar

variable {g e p : Grammar} {fresh v u : Symbol} {w : Word}

theorem IsPruned.bodies_ne_nil (hp : e.IsPruned p) (hoff : ¬p.Mentions v p.start)
    (hm : p.Mentions v u) :
    p.bodies u ≠ [] := by
  refine hp.supported u (hp.closed hm) fun hu ↦ ?_
  rw [hu] at hm
  exact hoff hm

section Removal

variable (h : g.IsExpanded fresh e) (hp : e.IsPruned p) (hg : g.IsLegal) (hf : fresh ∉ g)

include h hp hg hf

theorem IsExpanded.generates_iff : p.Generates w ↔ g.Generates w := by
  rw [Generates, hp.derives_iff, hp.start_eq, h.start_eq]
  exact h.derives_start_iff hg hf

theorem IsExpanded.derives_iff_of_mem (hv : v ∈ p) (hne : v ≠ p.start) :
    v ∈ g ∧ ∀ w, p.Derives v w ↔ g.Derives v w ∧ w ≠ [] := by
  have hvg : v ∈ g := by
    refine ((h.mem v).1 (hp.mem v hv)).resolve_right fun he ↦ hne ?_
    rw [he, hp.start_eq, h.start_eq]
  exact ⟨hvg, fun w ↦ hp.derives_iff.trans (h.derives_iff hg hf hvg)⟩

theorem IsExpanded.eq_nil_of_not_mem (hv : v ∈ g) (hvp : v ∉ p) (hw : g.Derives v w) : w = [] := by
  by_contra hne
  exact hvp (hp.mem_of_isProductive ⟨w, (h.derives_iff hg hf hv).2 ⟨hw, hne⟩⟩)

theorem IsExpanded.epsilon_mem_iff (hfree : p.IsEpsilonFree) :
    Body.epsilon ∈ p.bodies v ↔ v = p.start ∧ g.Generates [] := by
  rw [← h.generates_iff hp hg hf, Generates, hfree.derives_nil_iff]
  constructor
  · intro hb
    have hv := hfree.epsilon v hb
    exact ⟨hv, rfl, hv ▸ hb⟩
  · intro ⟨hv, _, hb⟩
    exact hv ▸ hb

end Removal

end Grammar

namespace Session

variable {s : Session}

/-- The new start has a name that nobody holds and the words of the old one. The other variables
that are left keep all their words but the empty one, and those that are gone had no other. -/
theorem eliminateEpsilon_keeps_words (hc : s.grammar.check = .ok ())
    (allocator : Option Allocator) :
    ∃ t nullable, s.eliminateEpsilon (.var (s.freshStart allocator)) = .ok (t, nullable) ∧
      t.grammar.start = .var (s.freshStart allocator) ∧
      (s.freshStart allocator ∉ s.grammar.names ∧
        ∀ a ∈ allocator, s.freshStart allocator ∉ a.used) ∧
      (∀ v, ∀ b ∈ t.grammar.bodies v, t.grammar.start ∉ b) ∧
      (∀ v, Body.epsilon ∈ t.grammar.bodies v ↔ v = t.grammar.start ∧ s.grammar.Generates []) ∧
      (∀ v, ∀ b ∈ t.grammar.bodies v, ∀ u ∈ Body.vars b, t.grammar.bodies u ≠ []) ∧
      (∀ w, t.grammar.Generates w ↔ s.grammar.Generates w) ∧
      (∀ v ∈ t.grammar, v ≠ t.grammar.start →
        v ∈ s.grammar ∧ ∀ w, t.grammar.Derives v w ↔ s.grammar.Derives v w ∧ w ≠ []) ∧
      ∀ v ∈ s.grammar, v ∉ t.grammar → ∀ w, s.grammar.Derives v w → w = [] := by
  have hg := Grammar.check_eq_ok_iff.1 hc
  have hnames := s.freshStart_not_mem_names allocator
  have hf : Symbol.var (s.freshStart allocator) ∉ s.grammar :=
    fun hm ↦ hnames.1 (Grammar.mem_names hm)
  have hv : (Symbol.var (s.freshStart allocator)).isVar = true ∧
      (Symbol.var (s.freshStart allocator)).IsLegal :=
    ⟨rfl, isVarName_freshStart _⟩
  obtain ⟨t, nullable, e, ht, -, he, hp⟩ := exists_eliminateEpsilon hg hf hv
  have hfree := hp.isEpsilonFree (he.isEpsilonFree hg hf hv)
  refine ⟨t, nullable, ht, hp.start_eq.trans he.start_eq, hnames,
    fun v b ↦ hfree.start_not_mem, fun v ↦ ?_, fun v b hb u hu ↦ ?_, fun w ↦
    he.generates_iff hp hg hf, fun v hv hne ↦ he.derives_iff_of_mem hp hg hf hv hne,
    fun v hv hvt w hw ↦ he.eq_nil_of_not_mem hp hg hf hv hvt hw⟩
  · exact he.epsilon_mem_iff hp hg hf hfree
  · exact hp.bodies_ne_nil (hfree.start_off v) ⟨b, hb, hu⟩

end Session

def Grammar.vanishing : Grammar :=
  ⟨.var "S", .ofEntries [(.var "S", [[.var "A", .var "B", .var "A"], [.var "S", .var "C"]]),
    (.var "A", [[.var "B"], [.terminal "a"]]), (.var "B", [[.var "A", .var "A"], [.epsilon]]),
    (.var "C", [[.epsilon]])]⟩

theorem Session.eliminateEpsilon_keeps_words_vanishing : Grammar.vanishing.check = .ok () ∧
    let s := Session.ofGrammar .vanishing
    let held := Allocator.new ["S0"] Allocator.defaultLimit
    ∃ t nullable, s.eliminateEpsilon (.var (s.freshStart held)) = .ok (t, nullable) ∧
      t.grammar.start = .var (s.freshStart held) ∧
      (s.freshStart held ∉ s.grammar.names ∧ ∀ a ∈ some held, s.freshStart held ∉ a.used) ∧
      (∀ v, ∀ b ∈ t.grammar.bodies v, t.grammar.start ∉ b) ∧
      (∀ v, Body.epsilon ∈ t.grammar.bodies v ↔ v = t.grammar.start ∧ s.grammar.Generates []) ∧
      (∀ v, ∀ b ∈ t.grammar.bodies v, ∀ u ∈ Body.vars b, t.grammar.bodies u ≠ []) ∧
      (∀ w, t.grammar.Generates w ↔ s.grammar.Generates w) ∧
      (∀ v ∈ t.grammar, v ≠ t.grammar.start →
        v ∈ s.grammar ∧ ∀ w, t.grammar.Derives v w ↔ s.grammar.Derives v w ∧ w ≠ []) ∧
      ∀ v ∈ s.grammar, v ∉ t.grammar → ∀ w, s.grammar.Derives v w → w = [] :=
  ⟨rfl, eliminateEpsilon_keeps_words (s := .ofGrammar .vanishing) rfl (some _)⟩

end ChomskyNormalForm
