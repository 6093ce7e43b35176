import ChomskyNormalForm.Proofs.Trace.Purge

namespace ChomskyNormalForm

abbrev TableLog := List (TableOp × TableAnswer)

/-- Whether nothing was done to the table that counts as a change: a start set and a variable
dropped always do. -/
def TableOp.isQuiet : TableOp × TableAnswer → Bool
  | (.setStart _, _) => false
  | (.drop _, _) => false
  | (_, .changed did) => !did
  | (_, .pruned dropped removed) => dropped.isEmpty && removed.isEmpty
  | _ => true

def TableAnswer.frozen? : TableAnswer → Option RawSnapshot
  | frozen s => some s
  | _ => none

namespace TableLog

def latest (source : Option RawSnapshot) (log : TableLog) : Option RawSnapshot :=
  (log.findSome? (·.2.frozen?)).or source

def recent (log : TableLog) : TableLog := log.takeWhile (·.2.frozen?.isNone)

end TableLog

inductive Origin where
  | rules (start : Symbol) (entries : List (Symbol × List Body))
  | grammar (g : Grammar)

namespace Origin

def source : Origin → Option RawSnapshot
  | rules .. => none
  | grammar g => some ⟨0, g.raw⟩

def editor : Origin → Editor
  | rules start entries => ⟨.new start entries, 0⟩
  | grammar g => ⟨.edit ⟨0, g.raw⟩, 1⟩

end Origin

namespace Editor

def shot (e : Editor) : RawSnapshot := (e.table.freeze e.supply).1

/-- The table has nothing twice. Freezing it gives the grammar of the rules as they stand, which is
the snapshot taken before for as long as nothing has changed since and a new one otherwise. What
tells whether it changes the table tells the truth. -/
structure IsCoherent (source : Option RawSnapshot) (log : TableLog) (e : Editor) : Prop where
  nodup_heads : e.table.heads.Nodup
  nodup_bodies : ∀ entry ∈ e.table.rules, entry.2.Nodup
  shot_eq : e.shot.grammar = ⟨e.table.start, e.table.rules⟩
  grammar_eq : (Grammar.mk e.table.start (.ofEntries e.table.rules)).raw = e.shot.grammar
  same_iff : ∀ s ∈ log.latest source, e.shot.serial = s.serial ↔
    ∀ entry ∈ log.recent, TableOp.isQuiet entry = true
  eq_of_same : ∀ s ∈ log.latest source, e.shot.serial = s.serial → e.shot = s
  ensure_iff : ∀ v, (e.table.ensure v).1 = true ↔ (e.table.ensure v).2.rules ≠ e.table.rules
  add_iff : ∀ v b, (e.table.add v b).1 = true ↔ (e.table.add v b).2.rules ≠ e.table.rules
  remove_iff : ∀ v b, (e.table.remove v b).1 = true ↔ (e.table.remove v b).2.rules ≠ e.table.rules
  replace_iff : ∀ v b c, (e.table.replace v b c).1 = true ↔
    (e.table.replace v b c).2.rules ≠ e.table.rules

inductive Moves (e : Editor) (op : TableOp) : TableAnswer → Editor → Prop
  | edit {answer : TableAnswer} {t : ProductionTable} : answer.frozen? = none → (∃ g, t.Holds g) →
      (t.snapshot = if TableOp.isQuiet (op, answer) then e.table.snapshot else none) →
      Moves e op answer ⟨t, e.supply⟩
  | freeze {g : Grammar} {s : RawSnapshot} {t : ProductionTable} {n : ℕ} :
      ProductionTable.Freezes g e.table e.supply s t n → Moves e op (.frozen s) ⟨t, n⟩

structure Keeps (source : Option RawSnapshot) (log : TableLog) (e : Editor) : Prop where
  holds : ∃ g, e.table.Holds g
  snapshot_eq : e.table.snapshot = if log.recent.all TableOp.isQuiet
    then log.latest source else none
  serial_lt : ∀ s ∈ log.latest source, s.serial < e.supply

variable {source : Option RawSnapshot} {log : TableLog} {e e' : Editor} {op : TableOp}
  {answer : TableAnswer} {g : Grammar} {v : Symbol}

theorem Moves.update {r : Bool × ProductionTable} (hg : e.table.Holds g) (hr : e.table.Updates v r)
    (hop : ∀ did, TableOp.isQuiet (op, .changed did) = !did) :
    e.Moves op (.changed r.1) ⟨r.2, e.supply⟩ := by
  refine .edit rfl (hr.exists_holds hg) ?_
  rw [hop, hr.snapshot_eq]
  cases r.1 <;> rfl

theorem Moves.purge {p : Purge} {c : Bool} (h : p.Tracks e.table g c) :
    e.Moves .prune (.pruned p.dropped p.removed) ⟨p.table, e.supply⟩ := by
  refine .edit rfl ⟨g, h.holds⟩ ?_
  have hquiet : TableOp.isQuiet (.prune, .pruned p.dropped p.removed) =
      (p.dropped.isEmpty && p.removed.isEmpty) := rfl
  rw [hquiet]
  split
  · rename_i hq
    rw [Bool.and_eq_true, List.isEmpty_iff, List.isEmpty_iff] at hq
    rw [h.unchanged hq.1 hq.2]
  · rename_i hq
    rw [Bool.and_eq_true, List.isEmpty_iff, List.isEmpty_iff, not_and_or] at hq
    exact h.renewed hq

theorem exists_moves (hg : e.table.Holds g) (op : TableOp) :
    ∃ answer e', e.step op = .ok (answer, e') ∧ e.Moves op answer e' := by
  cases op with
  | setStart v => exact ⟨_, _, rfl, .edit rfl ⟨_, hg.setStart⟩ rfl⟩
  | ensure v => exact ⟨_, _, rfl, .update (v := v) hg ProductionTable.updates_ensure fun _ ↦ rfl⟩
  | add v b => exact ⟨_, _, rfl, .update (v := v) hg hg.updates_add fun _ ↦ rfl⟩
  | remove v b => exact ⟨_, _, rfl, .update (v := v) hg hg.updates_remove fun _ ↦ rfl⟩
  | replace v old new => exact ⟨_, _, rfl, .update (v := v) hg hg.updates_replace fun _ ↦ rfl⟩
  | drop v => exact ⟨_, _, rfl, .edit rfl ⟨_, hg.drop⟩ rfl⟩
  | prune =>
    obtain ⟨p, q, c, hp, -, -, hc⟩ := hg.prune
    exact ⟨_, _, map_eq_ok.2 ⟨p, hp, rfl⟩, .purge hc⟩
  | freeze => exact ⟨_, _, rfl, .freeze (hg.freezes e.supply)⟩

namespace Keeps

theorem origin (o : Origin) : Keeps o.source [] o.editor := by
  cases o with
  | rules start entries =>
    obtain ⟨g, hg, hs⟩ := ProductionTable.exists_holds_new start entries
    exact ⟨⟨g, hg⟩, hs, nofun⟩
  | grammar g =>
    exact ⟨⟨g, ProductionTable.holds_edit 0 g⟩, rfl, fun s hs ↦ Option.some.inj hs ▸ Nat.one_pos⟩

theorem latest_of_some {s : RawSnapshot} (h : Keeps source log e) (hs : e.table.snapshot = some s) :
    log.latest source = some s ∧ log.recent.all TableOp.isQuiet = true := by
  have heq := h.snapshot_eq.symm.trans hs
  split at heq
  · rename_i hq
    exact ⟨heq, hq⟩
  · exact nomatch heq

theorem latest_of_none (h : Keeps source log e) (hs : e.table.snapshot = none) :
    log.latest source = none ∨ ¬log.recent.all TableOp.isQuiet = true := by
  have heq := h.snapshot_eq.symm.trans hs
  split at heq
  · exact .inl heq
  · rename_i hq
    exact .inr hq

theorem moves (h : Keeps source log e) (hm : e.Moves op answer e') :
    Keeps source ((op, answer) :: log) e' := by
  cases hm with
  | @edit _ t ha ht hs =>
    have hrecent : TableLog.recent ((op, answer) :: log) = (op, answer) :: log.recent :=
      List.takeWhile_cons_of_pos (by rw [ha]; rfl)
    have hlatest : TableLog.latest source ((op, answer) :: log) = log.latest source := by
      rw [TableLog.latest, List.findSome?_cons, ha]
      rfl
    refine ⟨ht, ?_, hlatest ▸ h.serial_lt⟩
    rw [hrecent, hlatest, List.all_cons, hs, h.snapshot_eq]
    cases TableOp.isQuiet (op, answer) <;> rfl
  | @freeze g s t n hf =>
    have hrecent : TableLog.recent ((op, .frozen s) :: log) = [] := List.takeWhile_cons_of_neg nofun
    have hlatest : TableLog.latest source ((op, .frozen s) :: log) = some s := rfl
    refine ⟨⟨g, hf.holds⟩, ?_, fun r hr ↦ ?_⟩
    · rw [hrecent, hlatest, hf.snapshot_eq]
      rfl
    · obtain rfl : s = r := Option.some.inj (hlatest.symm.trans hr)
      rcases hf.old_or_new with ⟨hs, rfl⟩ | ⟨-, hserial, rfl⟩
      · exact h.serial_lt s (h.latest_of_some hs).1
      · exact hserial ▸ Nat.lt_succ_self _

theorem resume (h : Keeps source log e) (ops : List TableOp) :
    ∃ log' e', Editor.resume log e ops = .ok (log', e') ∧ Keeps source log' e' := by
  -- each operation moves the table, and `Keeps` goes with it
  induction ops generalizing log e with
  | nil => exact ⟨log, e, rfl, h⟩
  | cons op ops ih =>
    obtain ⟨g, hg⟩ := h.holds
    obtain ⟨answer, e₁, hstep, hm⟩ := exists_moves hg op
    obtain ⟨log', e', hrest, h'⟩ := ih (h.moves hm)
    refine ⟨log', e', ?_, h'⟩
    rw [Editor.resume, hstep, ok_bind]
    exact hrest

theorem shot_cases (h : Keeps source log e) : log.latest source = some e.shot ∧
    log.recent.all TableOp.isQuiet = true ∨
    (∀ s ∈ log.latest source, e.shot.serial ≠ s.serial ∧
      ¬log.recent.all TableOp.isQuiet = true) := by
  obtain ⟨g, hg⟩ := h.holds
  rcases (hg.freezes e.supply).old_or_new with ⟨hs, -⟩ | ⟨hs, hserial, -⟩
  · exact .inl (h.latest_of_some hs)
  -- a new snapshot has the number that is up next, which none of the old ones has
  · refine .inr fun s hl ↦
      ⟨?_, (h.latest_of_none hs).resolve_left (Option.ne_none_iff_exists'.2 ⟨s, hl⟩)⟩
    rw [shot, hserial]
    exact (Nat.ne_of_lt (h.serial_lt s hl)).symm

theorem isCoherent (h : Keeps source log e) : IsCoherent source log e := by
  obtain ⟨g, hg⟩ := h.holds
  have hshot : e.shot.grammar = g.raw := (hg.freezes e.supply).grammar_eq
  constructor
  case nodup_heads => exact hg.heads_eq ▸ g.nodup_heads
  case nodup_bodies => exact hg.rules_eq ▸ g.rules.bodies_nodup
  case shot_eq => exact hshot.trans hg.raw_eq.symm
  case grammar_eq =>
    have hraw : Grammar.mk e.table.start (.ofEntries e.table.rules) =
        RawGrammar.grammar ⟨e.table.start, e.table.rules⟩ := rfl
    rw [hraw, hg.raw_eq, Grammar.grammar_raw, hshot]
  case same_iff =>
    intro s hs
    rw [← List.all_eq_true]
    rcases h.shot_cases with ⟨hlatest, hq⟩ | hnew
    · rw [hlatest] at hs
      exact iff_of_true (congrArg RawSnapshot.serial (Option.some.inj hs)) hq
    · exact iff_of_false (hnew s hs).1 (hnew s hs).2
  case eq_of_same =>
    intro s hs hserial
    rcases h.shot_cases with ⟨hlatest, -⟩ | hnew
    · exact Option.some.inj (hlatest.symm.trans hs)
    · exact absurd hserial (hnew s hs).1
  case ensure_iff => exact fun v ↦ ProductionTable.updates_ensure.iff
  case add_iff => exact fun v b ↦ hg.updates_add.iff
  case remove_iff => exact fun v b ↦ hg.updates_remove.iff
  case replace_iff => exact fun v b c ↦ hg.updates_replace.iff

end Keeps

/-- Whatever is done to a table, from rules or for changes to a grammar, it is coherent after each
step. -/
theorem run_coherent (o : Origin) (ops : List TableOp) :
    ∃ log e, o.editor.run ops = .ok (log, e) ∧ IsCoherent o.source log e := by
  obtain ⟨log, e, he, hk⟩ := (Keeps.origin o).resume ops
  exact ⟨log, e, he, hk.isCoherent⟩

end Editor

end ChomskyNormalForm
