import ChomskyNormalForm.Grammar.Notation
import ChomskyNormalForm.Proofs.NormalForm.Deeds

namespace ChomskyNormalForm

namespace Session

variable {s t : Session} {e : Event}

/-- The trace is faithful up to now, and will be with one more event: the snapshot under the stamp
of the table shows what is on the table, and the last event has shown it. -/
structure IsTraced (s : Session) : Prop where
  serial_lt : ∀ e ∈ s.events, e.snapshot.serial < s.trace.supply
  stamp_lt : ∀ n ∈ s.table.stamp, n < s.trace.supply
  stamped : ∀ e ∈ s.events, s.table.stamp = some e.snapshot.serial → e.snapshot.grammar = s.grammar
  last : ∀ e ∈ s.events.getLast?, s.table.stamp = some e.snapshot.serial
  faithful : Trace.IsFaithful s.events

theorem isTraced_ofGrammar (g : Grammar) : (ofGrammar g).IsTraced where
  serial_lt _ he := absurd he List.not_mem_nil
  stamp_lt _ hn := Option.some.inj hn ▸ Nat.one_pos
  stamped _ he := absurd he List.not_mem_nil
  last _ he := nomatch (he : none = some _)
  faithful := ⟨fun _ hd ↦ absurd hd List.not_mem_nil, List.isChain_nil⟩

namespace IsTraced

theorem eq_of_serial (h : s.IsTraced) (he : s.Logs e t) :
    ∀ d ∈ s.events, d.snapshot.serial = e.snapshot.serial →
    d.snapshot.grammar = e.snapshot.grammar := by
  intro d hd hserial
  -- a number used before is the stamp of the table, and under the stamp the table was shown
  rcases he.renews.same_or_new with ⟨hs, -, hg⟩ | ⟨hn, -, -⟩
  · rw [h.stamped d hd (hserial ▸ hs), he.shown, hg]
  · exact absurd (hserial.trans hn) (Nat.ne_of_lt (h.serial_lt d hd))

theorem supply_le (he : s.Logs e t) : s.trace.supply ≤ t.trace.supply := by
  rcases he.renews.same_or_new with ⟨-, hs, -⟩ | ⟨-, hs, -⟩ <;> omega

theorem serial_lt_of_logs (h : s.IsTraced) (he : s.Logs e t) :
    e.snapshot.serial < t.trace.supply := by
  rcases he.renews.same_or_new with ⟨hs, hn, -⟩ | ⟨hs, hn, -⟩
  · exact hn ▸ h.stamp_lt _ hs
  · omega

/-- The new event has the snapshot of the last one if nothing was changed in between, and only
then. -/
theorem terse_of_logs (h : s.IsTraced) (he : s.Logs e t) : ∀ d ∈ s.events.getLast?,
    (d.snapshot.serial ≠ e.snapshot.serial ↔
      e.snapshot.grammar.agrees d.snapshot.grammar = false) := by
  intro d hd
  have hstamp := h.last d hd
  have hdm := List.mem_of_getLast? hd
  rw [he.shown, h.stamped d hdm hstamp]
  rcases he.renews.same_or_new with ⟨hs, -, hg⟩ | ⟨hn, -, hnone | hne⟩
  · have hsame : d.snapshot.serial = e.snapshot.serial := Option.some.inj (hstamp.symm.trans hs)
    rw [hg, Grammar.agrees_refl]
    exact iff_of_false (fun hd ↦ hd hsame) nofun
  · exact nomatch hstamp.symm.trans hnone
  · exact iff_of_true (hn ▸ Nat.ne_of_lt (h.serial_lt d hdm)) hne

theorem logs (h : s.IsTraced) (he : s.Logs e t) : t.IsTraced where
  serial_lt := by
    rw [he.events_eq, List.forall_mem_append, List.forall_mem_singleton]
    exact ⟨fun d hd ↦ Nat.lt_of_lt_of_le (h.serial_lt d hd) (supply_le he), h.serial_lt_of_logs he⟩
  stamp_lt n hn := by
    rw [he.renews.stamp_eq] at hn
    exact Option.some.inj hn ▸ h.serial_lt_of_logs he
  stamped := by
    rw [he.events_eq, List.forall_mem_append, List.forall_mem_singleton, he.renews.stamp_eq]
    refine ⟨fun d hd hs ↦ ?_, fun _ ↦ he.shown⟩
    rw [h.eq_of_serial he d hd (Option.some.inj hs).symm, he.shown]
  last := by
    rw [he.events_eq, List.getLast?_concat, he.renews.stamp_eq]
    exact fun d hd ↦ congrArg (fun e : Event ↦ some e.snapshot.serial) (Option.some.inj hd)
  faithful := by
    rw [he.events_eq]
    exact h.faithful.concat (h.eq_of_serial he) (h.terse_of_logs he)

theorem proceeds (h : s.IsTraced) (hp : s.Proceeds t) : t.IsTraced := by
  induction hp with
  | refl => exact h
  | tail _ he ih =>
    obtain ⟨e, he⟩ := he
    exact ih.logs he

end IsTraced

end Session

theorem Grammar.faithful_normalizationTrace {g : Grammar} (hc : g.check = .ok ()) :
    Trace.IsFaithful g.normalizationTrace := by
  obtain ⟨t, hp, htrace, -⟩ := exists_proceeds hc
  exact htrace ▸ ((Session.isTraced_ofGrammar g).proceeds hp).faithful

namespace Trace

/-- Nothing is lost where a trace shows only the changes, and of a normalization nothing is shown
that is not one. -/
theorem delta_faithful (encode : Grammar → Json) :
    (∀ deeds, ∃ w, Workshop.empty.run deeds = .ok w ∧
      filled (toJson encode .delta w.trace.events.toList) =
        toJson encode .full w.trace.events.toList) ∧
    ∀ g : Grammar, g.check = .ok () →
      filled (toJson encode .delta g.normalizationTrace) =
        toJson encode .full g.normalizationTrace ∧
      ∃ items, toJson encode .delta g.normalizationTrace = .array items ∧
        items.length = g.normalizationTrace.length ∧
        ∀ i d e j, g.normalizationTrace[i]? = some d → g.normalizationTrace[i + 1]? = some e →
          items[i + 1]? = some j →
          ((j.field? "snapshot").isSome ↔
            e.snapshot.grammar.agrees d.snapshot.grammar = false) := by
  refine ⟨fun deeds ↦ ?_, fun g hc ↦ ?_⟩
  · obtain ⟨w, hw, hs⟩ := Workshop.isSound_empty.run deeds
    exact ⟨w, hw, filled_toJson hs.isConsistent⟩
  · have h := Grammar.faithful_normalizationTrace hc
    exact ⟨filled_toJson h.consistent, h.terse.exists_items encode⟩

theorem delta_faithful_balanced : Grammar.balanced.check = .ok () ∧
    filled (toJson Grammar.toJson .delta Grammar.balanced.normalizationTrace) =
      toJson Grammar.toJson .full Grammar.balanced.normalizationTrace ∧
    ∃ items, toJson Grammar.toJson .delta Grammar.balanced.normalizationTrace = .array items ∧
      items.length = Grammar.balanced.normalizationTrace.length ∧
      ∀ i d e j, Grammar.balanced.normalizationTrace[i]? = some d →
        Grammar.balanced.normalizationTrace[i + 1]? = some e → items[i + 1]? = some j →
        ((j.field? "snapshot").isSome ↔ e.snapshot.grammar.agrees d.snapshot.grammar = false) :=
  ⟨rfl, (delta_faithful Grammar.toJson).2 Grammar.balanced rfl⟩

end Trace

end ChomskyNormalForm
