import ChomskyNormalForm.Proofs.NormalForm.Replay
import ChomskyNormalForm.Proofs.Trace.Workshop

namespace ChomskyNormalForm

namespace Session

variable {s s₁ s₂ t u : Session} {stage : Stage} {r : Trimming} {fresh : String}

/-- From `s` to `t` there are only events that tell how the grammar was changed and show what came
of it. -/
def Proceeds : Session → Session → Prop := Relation.ReflTransGen fun s t ↦ ∃ e, s.Logs e t

theorem Reports.proceeds (h : Reports stage s t) : s.Proceeds t :=
  Relation.ReflTransGen.mono (fun _ _ ⟨e, he, _⟩ ↦ ⟨e, he⟩) _ _ h

def HaltsAfter (s : Session) (halt : Halt) : Prop := ∃ t, s.Proceeds t ∧ halt.trace = t.trace

theorem Proceeds.ends {α : Type} {x : Except Halt α} {P : α → Prop} (h : s.Proceeds t)
    (hx : Ends t.HaltsAfter x P) : Ends s.HaltsAfter x P :=
  hx.imp (fun _ ⟨u, hu, he⟩ ↦ ⟨u, h.trans hu, he⟩) fun _ ha ↦ ha

theorem Proceeds.ends_of_reports {α : Type} {x : Except Halt α} {P : α → Prop} (h : s.Proceeds t)
    (hx : Ends (HaltsIn stage t) x P) : Ends s.HaltsAfter x P :=
  h.ends (hx.imp (fun _ ⟨u, hu, he⟩ ↦ ⟨u, hu.proceeds, he⟩) fun _ ha ↦ ha)

theorem Prepares.proceeds (h : Prepares s s₁ s₂ u r fresh) (hg : s.grammar.IsLegal)
    (hs : s.grammar.IsProductive s.grammar.start) : s.Proceeds u := by
  obtain ⟨e, hlog, -⟩ := logs_introduceStart h.fresh_not_mem
  obtain ⟨he, hu⟩ := h.reports hg hs
  exact (((Reports.trim h.trim).proceeds.tail ⟨e, hlog⟩).trans he.proceeds).trans hu.proceeds

theorem proceeds_conclude (s : Session) (g : Grammar) : Ends s.HaltsAfter (s.conclude g) fun n ↦
    ∃ t, s.Proceeds t ∧ n.session.trace = t.trace ∧
      (n.isEmpty = false → n.grammar = t.grammar) := by
  unfold conclude
  dsimp only
  split
  · exact ⟨s, .refl, rfl⟩
  · exact ⟨s.decideFiniteness.1, (Reports.decideFiniteness s).proceeds, rfl,
      fun _ ↦ (grammar_note ..).symm⟩

theorem proceeds_normalize (hg : s.grammar.IsLegal) : Ends s.HaltsAfter s.normalize fun n ↦
    ∃ t, s.Proceeds t ∧ n.session.trace = t.trace ∧
      (n.isEmpty = false → n.grammar = t.grammar) := by
  have hc := Grammar.check_eq_ok_iff.2 hg
  -- names can run out in the last two stages only, and an empty language ends with the first one
  by_cases hs : s.grammar.IsProductive s.grammar.start
  · obtain ⟨s₁, s₂, u, r, fresh, hp⟩ := exists_prepares hg hs
    have hu := hp.proceeds hg hs
    rw [hp.normalize_eq hc]
    apply (hu.ends_of_reports (Reports.isolateTerminals (hp.isVar_of_mem hg hs) _)).bind
    intro p hr
    have ht : s.Proceeds p.1 := hu.trans hr.proceeds
    apply (ht.ends_of_reports (Reports.cascade p.1 p.2 [])).bind
    intro c hc
    have ht : s.Proceeds c.session := ht.trans hc.proceeds
    exact (ht.ends (proceeds_conclude c.session _)).mono fun n ⟨t, hx, he⟩ ↦ ⟨t, ht.trans hx, he⟩
  · obtain ⟨s₁, t, ht, -, -, -, hempty⟩ := exists_trim s
    have hground : ¬s.grammar.IsGrounded s.grammar.start :=
      fun hx ↦ hs (hg.isProper.isGrounded_iff.1 hx)
    rw [normalize_of_isEmpty hc ht (hempty.2 hground)]
    exact ⟨s₁, (Reports.trim ht).proceeds, rfl, nofun⟩

end Session

namespace Workshop

variable {w w' : Workshop} {s s' : Session} {t u : ProductionTable} {g h : Grammar}
  {e : Event} {n : ℕ}

theorem run_append {deeds more : List Deed} {w₁ w₂ : Workshop} (h : w.run deeds = .ok w₁)
    (h' : w₁.run more = .ok w₂) :
    w.run (deeds ++ more) = .ok w₂ := by
  rw [run, List.foldlM_append]
  exact bind_eq_ok.2 ⟨w₁, h, h'⟩

theorem run_singleton {d : Deed} (h : w.act d = .ok w') : w.run [d] = .ok w' := by
  rw [run, List.foldlM_cons, h]
  rfl

/-- What the only table holds can be changed step by step, with no event. -/
theorem exists_run_of_becomes (hb : g.Becomes h) (ht : w.tables = [t]) (hg : t.Holds g) :
    ∃ deeds w' u, w.run deeds = .ok w' ∧ w'.tables = [u] ∧ w'.trace = w.trace ∧ u.Holds h ∧
      (u = t ∧ h = g ∨ u.snapshot = none) := by
  induction hb with
  | refl => exact ⟨[], w, t, rfl, ht, rfl, hg, .inl ⟨rfl, rfl⟩⟩
  | tail _ hop ih =>
    obtain ⟨deeds, w₁, t₁, hrun, ht₁, htrace, hg₁, -⟩ := ih
    obtain ⟨op, hop⟩ := hop
    obtain ⟨answer, u, hstep, hfrozen, hu, hs⟩ := hop.exists_step hg₁ w₁.trace.supply
    have hact : w₁.act (.work 0 op) = .ok ⟨w₁.shots, [u], w₁.trace⟩ := by
      rw [act, ht₁, List.getElem?_cons_zero, Option.elim_some, hstep, ok_bind]
      dsimp only
      rw [hfrozen]
      rfl
    exact ⟨deeds ++ [.work 0 op], ⟨w₁.shots, [u], w₁.trace⟩, u,
      run_append hrun (run_singleton hact), rfl, htrace, hu, .inr hs⟩

/-- The workshop has the trace of the session, and for its only table one that holds the grammar of
the session. The stamp there is the number of the snapshot here. -/
structure Mirrors (w : Workshop) (s : Session) (t : ProductionTable) : Prop where
  trace_eq : w.trace = s.trace
  tables_eq : w.tables = [t]
  holds : t.Holds s.grammar
  stamp_eq : t.snapshot.map (·.serial) = s.table.stamp

/-- To show the table does what the event of the session tells. -/
theorem exists_show (he : s.Logs e s') (htrace : w.trace = s.trace) (ht : w.tables = [t])
    (hg : t.Holds s'.grammar) (hs : t.snapshot.map (·.serial) = some e.snapshot.serial ∧
      s'.trace.supply = s.trace.supply ∨
      t.snapshot = none ∧ e.snapshot.serial = s.trace.supply ∧
      s'.trace.supply = s.trace.supply + 1) :
    ∃ deeds w' u, w.run deeds = .ok w' ∧ w'.Mirrors s' u := by
  obtain ⟨shot, u, n, hf, hact⟩ :=
    act_showTable (i := 0) (by rw [ht]; rfl) hg e.action e.vars e.added e.removed
  have hnumbers : shot.serial = e.snapshot.serial ∧ n = s'.trace.supply := by
    rw [htrace] at hf
    rcases hf.old_or_new with ⟨hold, rfl⟩ | ⟨hnone, hserial, rfl⟩
    · rcases hs with ⟨hs, hsupply⟩ | ⟨hs, -⟩
      · rw [hold] at hs
        exact ⟨Option.some.inj hs, hsupply.symm⟩
      · exact nomatch hs.symm.trans hold
    · rcases hs with ⟨hs, -⟩ | ⟨-, hs, hsupply⟩
      · rw [hnone] at hs
        exact nomatch hs
      · exact ⟨hserial.trans hs.symm, hsupply.symm⟩
  have hevent : e = ⟨e.action, e.vars, e.added, e.removed, ⟨shot.serial, s'.grammar⟩⟩ := by
    rw [hnumbers.1, ← he.shown]
  refine ⟨_, _, u, run_singleton hact, ?_, ?_, hf.holds, ?_⟩
  · rw [← hevent, htrace, hnumbers.2]
    have hevents : s'.trace.events = s.trace.events.push e := by
      rw [← Array.toList_inj, Array.toList_push]
      exact he.events_eq
    rw [← hevents]
  · rw [ht]
    rfl
  · rw [hf.snapshot_eq, he.renews.stamp_eq, ← hnumbers.1]
    rfl

theorem Mirrors.logs (hm : w.Mirrors s t) (he : s.Logs e s') :
    ∃ deeds w' u, w.run deeds = .ok w' ∧ w'.Mirrors s' u := by
  rcases he.renews.same_or_new with ⟨hstamp, hsupply, hg⟩ | ⟨hserial, hsupply, hor⟩
  · exact exists_show he hm.trace_eq hm.tables_eq (hg ▸ hm.holds)
      (.inl ⟨hm.stamp_eq.trans hstamp, hsupply⟩)
  · obtain ⟨deeds, w₁, u, hrun, ht, htrace, hu, hsame⟩ :=
      exists_run_of_becomes he.becomes hm.tables_eq hm.holds
    have hnone : u.snapshot = none := by
      rcases hsame with ⟨rfl, hg⟩ | hs
      · rcases hor with hs | hne
        · exact Option.map_eq_none_iff.1 (hm.stamp_eq.trans hs)
        · rw [hg, Grammar.agrees_refl] at hne
          exact nomatch hne
      · exact hs
    obtain ⟨more, w', u', hshow, hm'⟩ :=
      exists_show he (htrace.trans hm.trace_eq) ht hu (.inr ⟨hnone, hserial, hsupply⟩)
    exact ⟨deeds ++ more, w', u', run_append hrun hshow, hm'⟩

theorem Mirrors.proceeds (hm : w.Mirrors s t) (hp : s.Proceeds s') :
    ∃ deeds w' u, w.run deeds = .ok w' ∧ w'.Mirrors s' u := by
  induction hp with
  | refl => exact ⟨[], w, t, rfl, hm⟩
  | tail _ he ih =>
    obtain ⟨e, he⟩ := he
    obtain ⟨deeds, w₁, u, hrun, hm₁⟩ := ih
    obtain ⟨more, w', u', hrest, hm'⟩ := hm₁.logs he
    exact ⟨deeds ++ more, w', u', run_append hrun hrest, hm'⟩

end Workshop

namespace Grammar

variable {g : Grammar}

/-- The trace of a normalization, also of one that halts. -/
def normalizationTrace (g : Grammar) : List Event :=
  match (Session.ofGrammar g).normalize with
  | .ok n => n.session.events
  | .error halt => halt.trace.events.toList

theorem exists_proceeds (hc : g.check = .ok ()) : ∃ t : Session, (Session.ofGrammar g).Proceeds t ∧
    g.normalizationTrace = t.events ∧ ∀ n, g.normalize = .ok n → n.isEmpty = false →
    n.grammar = t.grammar := by
  have h := Session.proceeds_normalize (s := .ofGrammar g) (check_eq_ok_iff.1 hc)
  unfold normalizationTrace normalize
  cases hn : (Session.ofGrammar g).normalize with
  | ok n =>
    rw [hn] at h
    obtain ⟨t, hp, htrace, hgr⟩ := h
    refine ⟨t, hp, congrArg (·.events.toList) htrace, fun m hm ↦ ?_⟩
    rw [mapError_eq_ok] at hm
    cases hm
    exact hgr
  | error halt =>
    rw [hn] at h
    obtain ⟨t, hp, htrace⟩ := h
    refine ⟨t, hp, congrArg (·.events.toList) htrace, fun m hm ↦ ?_⟩
    rw [mapError_eq_ok] at hm
    cases hm

/-- What the stages do to a grammar can be done to one production table with its caches: the trace
is the same, and in the end the table holds the normal form, if there is one. -/
theorem exists_deeds (hc : g.check = .ok ()) : ∃ deeds w t,
    Workshop.empty.run (.newGrammar g :: .edit 0 :: deeds) = .ok w ∧ w.tables = [t] ∧
      w.trace.events.toList = g.normalizationTrace ∧
      ∀ n, g.normalize = .ok n → n.isEmpty = false → t.Holds n.grammar := by
  obtain ⟨s, hp, htrace, hgr⟩ := exists_proceeds hc
  let w : Workshop := ⟨[⟨0, g.raw⟩], [.edit ⟨0, g.raw⟩], ⟨#[], 1⟩⟩
  have hw : w.Mirrors (.ofGrammar g) (.edit ⟨0, g.raw⟩) :=
    ⟨rfl, rfl, ProductionTable.holds_edit 0 g, rfl⟩
  have hstart : Workshop.empty.run [.newGrammar g, .edit 0] = .ok w := rfl
  obtain ⟨deeds, w', t, hrun, hm⟩ := hw.proceeds hp
  refine ⟨deeds, w', t, Workshop.run_append hstart hrun, hm.tables_eq, ?_, fun n hn hempty ↦ ?_⟩
  · rw [hm.trace_eq, htrace]
    rfl
  · exact hgr n hn hempty ▸ hm.holds

end Grammar

end ChomskyNormalForm
