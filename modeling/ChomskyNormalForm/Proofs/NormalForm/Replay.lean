import ChomskyNormalForm.Proofs.Form.Reported
import ChomskyNormalForm.Proofs.NormalForm.Correctness

namespace ChomskyNormalForm

/-- The events of `n` replay how `g` became the normal form. Each tells what it took away and what
it put in, they come stage by stage, and the last one shows the result. They show the start of `g`
until a new one is introduced, which happens once if the language is not empty, and then the new
one. -/
structure IsReplayLog (g : Grammar) (n : Normalization) : Prop where
  replay : IsReplay g n.session.events n.grammar
  last : ∃ e, n.session.events.getLast? = some e ∧ e.snapshot.grammar = n.grammar
  ordered : n.session.events.Pairwise fun d e ↦ d.action.stage.index ≤ e.action.stage.index
  keeps_start : n.isEmpty = true → n.grammar.start = g.start ∧ KeepsStart g.start n.session.events
  changes_start : n.isEmpty = false → ∃ before e after, n.session.events = before ++ e :: after ∧
    e.action = .introduceStart ∧ e.snapshot.grammar.start = n.grammar.start ∧
    KeepsStart g.start before ∧ KeepsStart n.grammar.start after

theorem Grammar.IsTrimmed.eq_nothing {g t : Grammar} (h : IsTrimmed g t)
    (hs : ¬g.IsGrounded g.start) :
    t = ⟨t.start, .empty⟩ := by
  have hstart : t.start ∉ t := by
    intro hm
    rw [h.mem, h.start_eq] at hm
    exact hs hm.1
  have hnone : ∀ v, v ∉ t := by
    intro v hv
    rcases Relation.ReflTransGen.cases_head ((h.mem v).1 hv).2 with he | ⟨u, ⟨b, hb, -⟩, -⟩
    · exact hstart (he ▸ hv)
    · exact hstart (mem_of_mem_bodies hb)
  have hentries : t.rules.entries = [] :=
    List.eq_nil_iff_forall_not_mem.2 fun e he ↦ hnone e.1 (List.mem_map_of_mem he)
  have hrules : t.rules = .empty := Rules.ext_entries hentries
  rw [← hrules]

namespace Session

variable {s s₁ s₂ t u : Session} {r : Trimming} {fresh : String} {n : Normalization} {g : Grammar}

theorem logs_introduceStart {v : Symbol} (hv : v ∉ s.grammar) : ∃ e, s.Logs e (s.introduceStart v) ∧
    e.action = .introduceStart ∧ (s.introduceStart v).grammar.start = v := by
  have hb : s.grammar.Becomes (s.grammar.withFront v) :=
    (Grammar.becomes_extend s.grammar v [[s.grammar.start]]).trans
      (Grammar.Becomes.of_changes (.setStart _ v))
  refine ⟨_, logs_commit (.of_added fun p ↦ ?_) hb ?_, rfl,
    congrArg Grammar.start (grammar_commit ..)⟩
  · rw [Grammar.mem_productions, Grammar.mem_productions, List.mem_singleton]
    have hb : p.body ∈ (s.grammar.withFront v).bodies p.head ↔ _ := Grammar.mem_bodies_withFront
    exact hb.trans (or_congr_right ⟨fun ⟨hv, hb⟩ ↦ by rw [← hv, ← hb], fun h ↦ h ▸ ⟨rfl, rfl⟩⟩)
  · refine Bool.eq_false_iff.2 fun ha ↦ hv ?_
    exact ((Grammar.agrees_iff.1 ha).2 v).1.1 (Grammar.mem_withFront.2 (.inr rfl))

theorem eq_of_conclude (h : s.conclude g = .ok n) :
    n.grammar = s.grammar ∧ n.isEmpty = false ∧ n.session = s.decideFiniteness.1 := by
  unfold conclude at h
  dsimp only at h
  split at h
  · exact nomatch h
  · cases h
    exact ⟨rfl, rfl, rfl⟩

namespace Prepares

theorem isLegal (h : Prepares s s₁ s₂ u r fresh) (hg : s.grammar.IsLegal)
    (hs : s.grammar.IsProductive s.grammar.start) : s₁.grammar.IsLegal := by
  obtain ⟨s', r', ht, hgt, -, -, -⟩ := exists_trim s
  cases ht.symm.trans h.trim
  exact hgt.symm ▸ h.prepared.trimmed.isLegal hg hs

theorem fresh_not_mem (h : Prepares s s₁ s₂ u r fresh) : Symbol.var fresh ∉ s₁.grammar :=
  h.fresh_eq ▸ text_freshStart_not_mem.1

theorem reports (h : Prepares s s₁ s₂ u r fresh) (hg : s.grammar.IsLegal)
    (hs : s.grammar.IsProductive s.grammar.start) :
    Reports .epsilon (s₁.introduceStart (.var fresh)) s₂ ∧ Reports .unit s₂ u := by
  obtain ⟨nullable, he⟩ := h.epsilon
  exact ⟨.eliminateEpsilon (h.isLegal hg hs) h.fresh_not_mem he, .eliminateUnits h.units⟩

theorem isVar_of_mem (h : Prepares s s₁ s₂ u r fresh) (hg : s.grammar.IsLegal)
    (hs : s.grammar.IsProductive s.grammar.start) : ∀ v ∈ u.grammar, v.isVar = true :=
  fun v hv ↦ ((h.prepared.isUnitFree hg hs).legal.head v hv).1

end Prepares

theorem Prepares.exists_reports (h : Prepares s s₁ s₂ u r fresh) (hg : s.grammar.IsLegal)
    (hs : s.grammar.IsProductive s.grammar.start) (hn : s.normalize = .ok n) :
    ∃ t c, Reports .epsilon (s₁.introduceStart (.var fresh)) s₂ ∧ Reports .unit s₂ u ∧
    Reports .terminal u t ∧
      Reports .cascade t c ∧ Reports .finiteness c n.session ∧ n.grammar = n.session.grammar ∧
      n.isEmpty = false := by
  rw [h.normalize_eq (Grammar.check_eq_ok_iff.2 hg)] at hn
  obtain ⟨⟨t, a⟩, ht, hn⟩ := bind_eq_ok.1 hn
  obtain ⟨c, hc, hn⟩ := bind_eq_ok.1 hn
  obtain ⟨he, hu⟩ := h.reports hg hs
  obtain ⟨hgr, hempty, hsession⟩ := eq_of_conclude hn
  refine ⟨t, c.session, he, hu, (Reports.isolateTerminals (h.isVar_of_mem hg hs) _).of_ok ht,
    (Reports.cascade ..).of_ok hc, hsession ▸ .decideFiniteness _, ?_, hempty⟩
  rw [hgr, hsession, decideFiniteness, grammar_note]

theorem isReplayLog_of_isProductive (hg : s.grammar.IsLegal)
    (hs : s.grammar.IsProductive s.grammar.start) (he : s.events = []) (hn : s.normalize = .ok n) :
    IsReplayLog s.grammar n := by
  obtain ⟨s₁, s₂, u, r, fresh, h⟩ := exists_prepares hg hs
  obtain ⟨t, c, h₂, h₃, h₄, h₅, h₆, hgr, hempty⟩ := h.exists_reports hg hs hn
  obtain ⟨e, hlog, ha, hv⟩ := logs_introduceStart h.fresh_not_mem
  have h₁ := Reports.trim h.trim
  have hstage : e.action.stage = .epsilon := by
    rw [ha]
    rfl
  have hr := ((Recounts.start .trim he).reports h₁ (Nat.le_refl _)).logs hlog
    (by rw [hstage]; decide)
  rw [hstage] at hr
  have hrec :=
    ((((hr.reports h₂ (Nat.le_refl _)).reports h₃ (by decide)).reports h₄ (by decide)).reports h₅
    (by decide)).reports h₆ (by decide)
  obtain ⟨-, before, hbefore, hk⟩ := h₁.follows
  obtain ⟨hstart, after, hafter, hk'⟩ :=
    (((h₂.follows.trans h₃.follows).trans h₄.follows).trans h₅.follows).trans
    h₆.follows
  have hevents : n.session.events = before ++ e :: after := by
    rw [hafter, hlog.events_eq, hbefore, he, List.nil_append, List.append_assoc,
      List.singleton_append]
  refine ⟨hgr ▸ hrec.replay, ?_, hrec.ordered, fun hx ↦ ?_,
    fun _ ↦ ⟨before, e, after, hevents, ha, ?_, hk, ?_⟩⟩
  · rw [hgr]
    refine hrec.replay.exists_getLast fun hnil ↦ ?_
    rw [hnil] at hevents
    exact List.append_ne_nil_of_right_ne_nil _ (List.cons_ne_nil _ _) hevents.symm
  · rw [hempty] at hx
    exact nomatch hx
  · rw [hlog.shown, hgr, hstart]
  · rw [hgr, hstart]
    exact hk'

theorem events_ne_nil_of_trim (h : s.trim = .ok (t, r)) : t.events ≠ [] := by
  rw [trim_eq] at h
  obtain ⟨r', -, h⟩ := bind_eq_ok.1 h
  cases h
  rw [trimmed, (logs_emit (.refl _)).events_eq]
  exact List.append_ne_nil_of_right_ne_nil _ (List.cons_ne_nil _ _)

theorem isReplayLog_of_not_isProductive (hg : s.grammar.IsLegal)
    (hs : ¬s.grammar.IsProductive s.grammar.start) (he : s.events = []) (hn : s.normalize = .ok n) :
    IsReplayLog s.grammar n := by
  obtain ⟨s₁, t, ht, hgt, -, htrim, hempty⟩ := exists_trim s
  have hground : ¬s.grammar.IsGrounded s.grammar.start :=
    fun h ↦ hs (hg.isProper.isGrounded_iff.1 h)
  have hnothing := htrim.eq_nothing hground
  have h₁ := Reports.trim ht
  have hrec := (Recounts.start .trim he).reports h₁ (Nat.le_refl _)
  obtain ⟨-, es, hes, hk⟩ := h₁.follows
  rw [he, List.nil_append] at hes
  rw [normalize_of_isEmpty (Grammar.check_eq_ok_iff.2 hg) ht (hempty.2 hground), ← hnothing] at hn
  cases hn
  refine ⟨hgt ▸ hrec.replay, ?_, hrec.ordered, fun _ ↦ ⟨htrim.start_eq, ?_⟩, nofun⟩
  · have hlast := hrec.replay.exists_getLast (events_ne_nil_of_trim ht)
    rwa [hgt] at hlast
  · exact hes ▸ hk

end Session

namespace Grammar

variable {g : Grammar} {n : Normalization}

/-- The trace of a normalization accounts for every edit. -/
theorem normalize_replays (hc : g.check = .ok ()) (hn : g.normalize = .ok n) : IsReplayLog g n := by
  have hg := check_eq_ok_iff.1 hc
  rw [normalize_eq_ok] at hn
  by_cases hs : g.IsProductive g.start
  · exact Session.isReplayLog_of_isProductive (s := .ofGrammar g) hg hs rfl hn
  · exact Session.isReplayLog_of_not_isProductive (s := .ofGrammar g) hg hs rfl hn

theorem normalize_replays_balanced :
    balanced.check = .ok () ∧ ∃ n, balanced.normalize = .ok n ∧ IsReplayLog balanced n := by
  obtain ⟨n, hn, -⟩ := exists_normalize_balanced
  exact ⟨rfl, n, hn, normalize_replays rfl hn⟩

end Grammar

end ChomskyNormalForm
