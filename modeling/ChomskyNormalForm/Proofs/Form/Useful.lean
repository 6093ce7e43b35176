import ChomskyNormalForm.Proofs.Form.Normal
import ChomskyNormalForm.Proofs.Form.Trimmed
import ChomskyNormalForm.Proofs.Language.SententialForm

namespace ChomskyNormalForm

namespace Grammar

variable {g t : Grammar} {p : Production} {v : Symbol} {b x : Body}

/-- Some derivation of a word from the start passes through a form with the symbol in it. -/
def IsPassed (g : Grammar) (v : Symbol) : Prop := ∃ x, v ∈ x ∧ g.Passes x

/-- A derivation that comes to a symbol can go on with any of its bodies over grounded variables. -/
theorem IsPassed.exists_step (hg : g.IsLegal) (hv : g.IsPassed v) (hb : b ∈ g.bodies v)
    (h : ∀ u ∈ Body.vars b, g.IsGrounded u) :
    ∃ x y, g.Leads [g.start] x ∧ g.Rewrites ⟨v, b⟩ x y ∧ g.Finishes y := by
  obtain ⟨_, hx, hl, hf⟩ := hv
  obtain ⟨x, y, rfl⟩ := List.append_of_mem hx
  have hbody : g.Finishes b := hg.finishes_iff.2 <|
    IsProper.exists_denotes (hg.isProper v b hb) fun u hu ↦ hg.isProper.isGrounded_iff.1 (h u hu)
  exact ⟨_, _, hl, .intro x y hb, hg.finishes_step hf hbody⟩

namespace IsTrimmed

theorem start_mem (h : IsTrimmed g t) (hv : v ∈ t) : g.start ∈ t := by
  rw [← h.start_eq]
  rcases Relation.ReflTransGen.cases_head ((h.mem v).1 hv).2 with he | ⟨u, hu, -⟩
  · exact he ▸ hv
  · exact hu.mem

theorem isProductive (h : IsTrimmed g t) (hg : g.IsLegal) (hv : v ∈ t) : g.IsProductive v :=
  hg.isProper.isGrounded_iff.1 ((h.mem v).1 hv).1

theorem isPassed (h : IsTrimmed g t) (hg : g.IsLegal) (hv : v ∈ t) : g.IsPassed v := by
  have hs := h.start_mem hv
  have hr := ((h.mem v).1 hv).2
  rw [h.start_eq] at hr
  -- the path from the start to `v`, read as a derivation: each body on it is over grounded
  -- variables
  induction hr with
  | refl => exact ⟨[g.start], List.mem_singleton_self _, .refl, (h.isProductive hg hs).finishes⟩
  | tail _ hm ih =>
    obtain ⟨b, hb, hu⟩ := id hm
    obtain ⟨hv, hb, hgr⟩ := (h.bodies _ b).1 hb
    obtain ⟨x, y, hl, hstep, hf⟩ := (ih hv).exists_step hg hb hgr
    exact ⟨y, hstep.body_subset (Body.mem_vars.1 hu).1, hl.tail hstep, hf⟩

theorem mem_bodies_of_rewrites (h : IsTrimmed g t) (hg : g.IsLegal) {y : Body}
    (hp : g.Rewrites p x y) (hf : g.Finishes y) (hv : p.head ∈ t) : p.body ∈ t.bodies p.head := by
  refine (h.bodies _ _).2 ⟨hv, hp.mem_bodies, fun u hu ↦ ?_⟩
  rw [Body.mem_vars] at hu
  exact (hg.isProductive_of_finishes hf (hp.body_subset hu.1) hu.2).isGrounded

theorem mem_of_passes (h : IsTrimmed g t) (hg : g.IsLegal) (hx : g.Passes x) (hv : v ∈ x)
    (hvar : v.isVar = true) :
    v ∈ t := by
  obtain ⟨hl, hf⟩ := hx
  induction hl generalizing v with
  | refl =>
    have hp := hg.isProductive_of_finishes hf hv hvar
    obtain rfl := List.mem_singleton.1 hv
    exact (h.mem _).2 ⟨hp.isGrounded, h.start_eq ▸ .refl⟩
  | tail _ hs ih =>
    obtain ⟨p, hp⟩ := hs
    rcases hp.mem_or_mem_body hv with hv | hv
    · exact ih hv hvar (hp.finishes hf)
    · have hhead := ih hp.head_mem (hg.isVar_of_rewrites hp) (hp.finishes hf)
      exact h.closed ⟨p.body, h.mem_bodies_of_rewrites hg hp hf hhead, Body.mem_vars.2 ⟨hv, hvar⟩⟩

theorem mem_iff_isPassed (h : IsTrimmed g t) (hg : g.IsLegal) :
    v ∈ t ↔ v.isVar = true ∧ g.IsPassed v := by
  constructor
  · exact fun hv ↦ ⟨(hg.head v (h.subset hv)).1, h.isPassed hg hv⟩
  · intro ⟨hvar, x, hv, hx⟩
    exact h.mem_of_passes hg hx hv hvar

theorem mem_productions_iff_uses (h : IsTrimmed g t) (hg : g.IsLegal) :
    p ∈ t.productions ↔ g.Uses p := by
  rw [mem_productions]
  constructor
  · intro hb
    obtain ⟨hv, hb, hgr⟩ := (h.bodies _ _).1 hb
    exact (h.isPassed hg hv).exists_step hg hb hgr
  · intro ⟨x, y, hl, hp, hf⟩
    refine h.mem_bodies_of_rewrites hg hp hf ?_
    exact h.mem_of_passes hg ⟨hl, hp.finishes hf⟩ hp.head_mem (hg.isVar_of_rewrites hp)

end IsTrimmed

theorem mem_retained_iff {r : Trimming} (h : g.trimming = .ok r) :
    v ∈ r.retained ↔ v ∈ r.grammar := by
  obtain ⟨layers, hl, h⟩ := bind_eq_ok.1 h
  obtain ⟨layers', hl', hm⟩ := exists_productiveLayers g
  cases hl.symm.trans hl'
  cases h
  simp only [Trimming.retained, Trimming.productive, List.mem_filter,
    decide_eq_true_eq, mem_restrict, mem_filterBodies, Bool.and_eq_true, SymbolSet.mem_ofList, hm]
  exact ⟨fun hv ↦ ⟨hv.1.mem, hv⟩, And.right⟩

theorem isEmpty_normalize_iff {n : Normalization} (hc : g.check = .ok ())
    (hn : g.normalize = .ok n) :
    n.isEmpty = true ↔ ∀ w, ¬g.Generates w := by
  by_cases hs : g.IsProductive g.start
  · rw [(isNormalized_of_normalize hc hs hn).isEmpty_eq]
    exact ⟨nofun, fun h ↦ absurd hs (not_exists.2 h)⟩
  · obtain ⟨m, hm, hempty, -⟩ :=
      Session.normalize_of_not_isProductive (s := .ofGrammar g) (check_eq_ok_iff.1 hc) hs
    cases (normalize_eq_ok.1 hn).symm.trans hm
    exact ⟨fun _ ↦ not_exists.1 hs, fun _ ↦ hempty⟩

end Grammar

namespace Session

variable {s : Session}

/-- Trimming keeps just the variables and the productions of derivations of words from the start,
and the words of each variable that it keeps. Nothing derived from the start is what an empty
language means, to the trimming and to the normalization. -/
theorem trim_keeps_useful (hc : s.grammar.check = .ok ()) :
    ∃ s' t, s.trim = .ok (s', t) ∧ s'.grammar = t.grammar ∧
    (∀ v, v ∈ t.retained ↔ v.isVar = true ∧ s.grammar.IsPassed v) ∧
    (∀ p, p ∈ t.grammar.productions ↔ s.grammar.Uses p) ∧
    (∀ v ∈ t.retained, ∀ w, t.grammar.Derives v w ↔ s.grammar.Derives v w) ∧
    (t.isEmpty = true ↔ ∀ w, ¬s.grammar.Generates w) ∧
    ∀ n, s.grammar.normalize = .ok n → (n.isEmpty = true ↔ ∀ w, ¬s.grammar.Generates w) := by
  have hg := Grammar.check_eq_ok_iff.1 hc
  obtain ⟨s', t, ht, hs', -, h, hempty⟩ := exists_trim s
  have hret : ∀ v, v ∈ t.retained ↔ v ∈ t.grammar := by
    intro v
    rw [trim_eq] at ht
    obtain ⟨r, hr, ht⟩ := bind_eq_ok.1 ht
    cases ht
    exact Grammar.mem_retained_iff (expect_eq_ok.1 hr)
  refine ⟨s', t, ht, hs', fun v ↦ ?_, fun p ↦ h.mem_productions_iff_uses hg, fun v hv w ↦ ?_, ?_,
    fun n hn ↦ ?_⟩
  · rw [hret, h.mem_iff_isPassed hg]
  · exact h.derives_iff ((hret v).1 hv)
  · rw [hempty, hg.isProper.isGrounded_iff]
    exact not_exists
  · exact Grammar.isEmpty_normalize_iff hc hn

end Session

def Grammar.overgrown : Grammar :=
  ⟨.var "S",
    .ofEntries [(.var "S", [[.terminal "a", .var "S"], [.terminal "a"], [.var "A", .var "B"]]),
      (.var "A", [[.terminal "a"]]), (.var "B", [[.var "B", .terminal "b"]]),
      (.var "C", [[.epsilon]])]⟩

theorem Session.trim_keeps_useful_overgrown : Grammar.overgrown.check = .ok () ∧
    ∃ s' t, (Session.ofGrammar .overgrown).trim = .ok (s', t) ∧ s'.grammar = t.grammar ∧
    (∀ v, v ∈ t.retained ↔ v.isVar = true ∧ Grammar.overgrown.IsPassed v) ∧
    (∀ p, p ∈ t.grammar.productions ↔ Grammar.overgrown.Uses p) ∧
    (∀ v ∈ t.retained, ∀ w, t.grammar.Derives v w ↔ Grammar.overgrown.Derives v w) ∧
    (t.isEmpty = true ↔ ∀ w, ¬Grammar.overgrown.Generates w) ∧
    ∀ n, Grammar.overgrown.normalize = .ok n →
    (n.isEmpty = true ↔ ∀ w, ¬Grammar.overgrown.Generates w) :=
  ⟨rfl, trim_keeps_useful (s := .ofGrammar .overgrown) rfl⟩

end ChomskyNormalForm
