import ChomskyNormalForm.Proofs.Form.Renamed
import ChomskyNormalForm.Proofs.Form.Reordered
import ChomskyNormalForm.Proofs.NormalForm.Correctness

namespace ChomskyNormalForm

theorem Prepared.isBinary {g t u : Grammar} {fresh : Symbol} (h : Prepared g t fresh u)
    (hg : g.IsBinary) :
    u.IsBinary := by
  have hfrom : ∀ v, ∀ b ∈ u.bodies v, ∃ y, b ∈ g.bodies y := by
    intro v b hb
    rw [((Grammar.agrees_iff.1 (h.agrees hg.toIsUnitFree)).2 v).2 b,
      Grammar.mem_bodies_renameStart fun v b ↦ hg.start_not_mem] at hb
    rcases hb with ⟨-, hb⟩ | ⟨-, hb⟩
    · exact ⟨v, hb⟩
    · exact ⟨g.start, hb⟩
  refine ⟨⟨h.isUnitFree hg.legal (hg.useful _ hg.legal.start_mem).2, fun v b hb ↦ ?_⟩,
    fun v b hb ↦ ?_⟩
  · obtain ⟨y, hy⟩ := hfrom v b hb
    exact hg.isVar y b hy
  · obtain ⟨y, hy⟩ := hfrom v b hb
    exact hg.length_le y b hy

namespace Grammar

variable {g : Grammar}

/-- Normalization gives the grammar with a new name for its start, and makes no helpers. -/
def IsStable (g : Grammar) : Prop := ∃ n, g.normalize = .ok n ∧ n.session.helpers = [] ∧
    n.grammar.start ∉ g ∧
  n.grammar.agrees (g.renameStart n.grammar.start) = true

theorem IsBinary.isStable (hg : g.IsBinary) : g.IsStable := by
  obtain ⟨t, fresh, u, hp, hh, he⟩ :=
    Session.exists_prepared (s := .ofGrammar g) hg.legal (hg.useful _ hg.legal.start_mem).2
  have hu : u.grammar.IsBinary := hp.isBinary hg
  rw [Session.isolateTerminals_eq_self hu.terminal_not_mem, ok_bind,
    Session.cascade_eq_self hu.length_le, ok_bind,
    Session.conclude_eq_ok hu.violations_eq_nil] at he
  refine ⟨_, normalize_eq_ok.2 he, ?_, ?_, ?_⟩
  · rw [Session.helpers_decideFiniteness, hh]
    rfl
  · exact hp.start_eq ▸ hp.not_mem
  · exact hp.start_eq ▸ hp.agrees hg.toIsUnitFree

/-- A grammar in normal form whose variables are all useful only gets a new name for its start. So
does what a first normalization gives. -/
theorem normalize_renames_start (hc : g.check = .ok ()) :
    (g.violations = [] → (∀ v ∈ g, g.IsUseful v) → g.IsStable) ∧
    ∀ n, (∃ w, g.Generates w) → g.normalize = .ok n → n.grammar.IsStable := by
  refine ⟨fun hv hu ↦ ?_, fun n hw hn ↦ ?_⟩
  · exact ((check_eq_ok_iff.1 hc).isBinary hv hu).isStable
  · exact (isNormalized_of_normalize hc hw hn).isBinary.isStable

def paired : Grammar := ⟨.var "S", .ofEntries [(.var "S", [[.var "A", .var "B"], [.epsilon]]),
  (.var "A", [[.terminal "a"]]), (.var "B", [[.terminal "b"]])]⟩

theorem paired_isUseful : ∀ v ∈ paired, paired.IsUseful v := by
  have hA : paired.Mentions paired.start (.var "A") := ⟨[.var "A", .var "B"], by decide, by decide⟩
  have hB : paired.Mentions paired.start (.var "B") := ⟨[.var "A", .var "B"], by decide, by decide⟩
  intro v hv
  have hcases : v ∈ [Symbol.var "S", .var "A", .var "B"] := hv
  simp only [List.mem_cons, List.not_mem_nil, or_false] at hcases
  rcases hcases with rfl | rfl | rfl
  · exact ⟨.refl, [], [.epsilon], by decide, .epsilon .nil⟩
  · exact ⟨hA.reaches, _, [.terminal "a"], by decide, .terminal "a" .nil⟩
  · exact ⟨hB.reaches, _, [.terminal "b"], by decide, .terminal "b" .nil⟩

theorem normalize_renames_start_paired : paired.check = .ok () ∧ paired.violations = [] ∧
    paired.IsStable ∧
    ∃ n, balanced.normalize = .ok n ∧ n.grammar.IsStable := by
  obtain ⟨n, hn, -⟩ := exists_normalize_balanced
  refine ⟨rfl, rfl, (normalize_renames_start rfl).1 rfl paired_isUseful, n, hn, ?_⟩
  exact (normalize_renames_start rfl).2 n ⟨[], balanced_generates⟩ hn

end Grammar

namespace Normalization

variable {n m : Normalization}

/-- A normalization as a client sees it, with the trace in one of the modes. -/
def report (mode : SnapshotMode) (n : Normalization) : Json :=
  .record (n.fields Grammar.toJson (Trace.toJson Grammar.toJson mode n.session.trace.events.toList))

theorem Reordered.report_eq (h : n.Reordered m) (mode : SnapshotMode) :
    n.report mode = m.report mode := by
  have htrace : Trace.toJson Grammar.toJson mode n.session.trace.events.toList =
      Trace.toJson Grammar.toJson mode m.session.trace.events.toList :=
    Trace.toJson_eq h.events mode
  have hinfinite : n.isInfiniteJson = m.isInfiniteJson := by
    rw [isInfiniteJson, h.isInfinite_eq, isInfiniteJson]
  rw [report, report, fields, fields, h.isEmpty_eq, hinfinite, h.cycle_eq, h.trimmed.toJson_eq,
    h.grammar.toJson_eq, h.grammar.text_eq, htrace]

end Normalization

namespace Grammar

variable {g h : Grammar}

/-- The order in which the variables came shows nowhere: either the names for helpers run out in
both orders, or both normalizations have the same report. -/
theorem normalize_reordered (hc : g.check = .ok ()) (hr : g.Reordered h) : h.check = .ok () ∧
    ((∃ limit, g.normalize = .error (.namesExhausted limit) ∧
      h.normalize = .error (.namesExhausted limit)) ∨
      ∃ n m, g.normalize = .ok n ∧ h.normalize = .ok m ∧
      ∀ mode, n.report mode = m.report mode) := by
  have hg := check_eq_ok_iff.1 hc
  have hm : Matches Eq Normalization.Reordered g.normalize h.normalize :=
    ((Session.reordered_ofGrammar hr).normalize hg).mapError fun _ _ he ↦ he
  refine ⟨check_eq_ok_iff.2 (hr.isLegal hg), ?_⟩
  generalize hx : g.normalize = x, h.normalize = y at hm
  cases hm with
  | @ok n m hnm => exact .inr ⟨n, m, rfl, rfl, hnm.report_eq⟩
  | @error e _ he =>
    subst he
    obtain ⟨n, hn⟩ | ⟨limit, hlimit⟩ := normalize_eq_ok_or_exhausted hg
    · rw [hn] at hx
      exact nomatch hx
    · rw [hlimit] at hx
      cases hx
      exact .inl ⟨limit, rfl, rfl⟩

def padded : Grammar :=
  ⟨.var "S", .ofEntries [(.var "S", [[.var "B", .var "S"], [.terminal "a"]]),
    (.var "B", [[.terminal "b"]])]⟩

def paddedTurned : Grammar := ⟨.var "S", .ofEntries padded.rules.entries.reverse⟩

theorem normalize_reordered_padded : padded.check = .ok () ∧ padded.Reordered paddedTurned ∧
    ∃ n m, padded.normalize = .ok n ∧ paddedTurned.normalize = .ok m ∧
    ∀ mode, n.report mode = m.report mode := by
  have hc : padded.check = .ok () := rfl
  have hr : padded.Reordered paddedTurned := reordered_of_perm rfl (by decide)
  refine ⟨hc, hr, ?_⟩
  obtain ⟨-, ⟨limit, hlimit, -⟩ | h⟩ := normalize_reordered hc hr
  · have hok : padded.normalize.toOption.isSome = true := by decide +kernel
    rw [hlimit] at hok
    exact nomatch hok
  · exact h

end Grammar

end ChomskyNormalForm
