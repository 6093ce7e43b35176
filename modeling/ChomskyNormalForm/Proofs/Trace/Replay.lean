import ChomskyNormalForm.Proofs.Grammar.Edits
import ChomskyNormalForm.Proofs.Outcome
import ChomskyNormalForm.Proofs.Trace.Changes
import ChomskyNormalForm.Proofs.Trace.Helpers
import Mathlib.Logic.Basic

namespace ChomskyNormalForm

namespace Grammar

/-- `h` has the productions of `g` that are not in `removed`, and those in `added`. -/
structure IsEdit (g : Grammar) (added removed : List Production) (h : Grammar) : Prop where
  removed_subset : removed ⊆ g.productions
  added_subset : added ⊆ h.productions
  disjoint : ∀ p ∈ removed, p ∉ added
  mem_iff : ∀ p, p ∈ h.productions ↔ p ∈ g.productions ∧ p ∉ removed ∨ p ∈ added

variable {g h k : Grammar} {added removed more : List Production} {v : Symbol}
  {vs : List Symbol} {b c : Body} {bs : List Body}

theorem IsEdit.of_added (hh : ∀ p, p ∈ h.productions ↔ p ∈ g.productions ∨ p ∈ added) :
    g.IsEdit added [] h where
  removed_subset := List.nil_subset _
  added_subset p hp := (hh p).2 (.inr hp)
  disjoint _ hp := absurd hp List.not_mem_nil
  mem_iff p := by simp only [hh, List.not_mem_nil, not_false_eq_true, and_true]

theorem IsEdit.of_removed (hr : ∀ p, p ∈ removed ↔ p ∈ g.productions ∧ p ∉ h.productions)
    (hh : h.productions ⊆ g.productions) : g.IsEdit [] removed h where
  removed_subset p hp := ((hr p).1 hp).1
  added_subset := List.nil_subset _
  disjoint _ _ := List.not_mem_nil
  mem_iff p := by
    rw [or_iff_left List.not_mem_nil, hr, not_and, not_not]
    exact ⟨fun hp ↦ ⟨hh hp, fun _ ↦ hp⟩, fun hp ↦ hp.2 hp.1⟩

theorem IsEdit.refl (g : Grammar) : g.IsEdit [] [] g :=
  .of_added fun _ ↦ (or_iff_left List.not_mem_nil).symm

theorem IsEdit.append_removed (hg : g.IsEdit [] removed h) (hh : h.IsEdit [] more k) :
    g.IsEdit [] (removed ++ more) k where
  removed_subset p hp := by
    rcases List.mem_append.1 hp with hp | hp
    · exact hg.removed_subset hp
    · exact (((hg.mem_iff p).1 (hh.removed_subset hp)).resolve_right List.not_mem_nil).1
  added_subset := List.nil_subset _
  disjoint _ _ := List.not_mem_nil
  mem_iff p := by
    rw [hh.mem_iff, hg.mem_iff, List.mem_append, not_or]
    simp only [List.not_mem_nil, or_false, and_assoc]

theorem IsEdit.append_added (hg : g.IsEdit [] removed h) (hh : h.IsEdit added [] k)
    (hd : ∀ p ∈ removed, p ∉ added) :
    g.IsEdit added removed k where
  removed_subset := hg.removed_subset
  added_subset := hh.added_subset
  disjoint := hd
  mem_iff p := by
    rw [hh.mem_iff, hg.mem_iff]
    simp only [List.not_mem_nil, or_false, not_false_eq_true, and_true]

theorem isEdit_extend (g : Grammar) (v : Symbol) (bs : List Body) :
    g.IsEdit (bs.map (⟨v, ·⟩)) [] (g.extend v bs) := by
  refine .of_added fun p ↦ ?_
  rw [mem_productions, mem_productions, mem_bodies_extend, List.mem_map]
  refine or_congr_right ⟨fun ⟨hv, hb⟩ ↦ ⟨p.body, hb, hv ▸ rfl⟩, ?_⟩
  rintro ⟨b, hb, rfl⟩
  exact ⟨rfl, hb⟩

theorem isEdit_filterBodies {f : Symbol → Body → Bool}
    (hr : ∀ p, p ∈ removed ↔ p ∈ g.productions ∧ f p.head p.body = false) :
    g.IsEdit [] removed (g.filterBodies f) := by
  refine .of_removed (fun p ↦ ?_) fun p hp ↦ ?_
  · rw [hr, mem_productions, mem_productions, mem_bodies_filterBodies, ← Bool.not_eq_true]
    exact ⟨fun ⟨hb, hf⟩ ↦ ⟨hb, fun h ↦ hf h.2⟩, fun ⟨hb, hf⟩ ↦ ⟨hb, fun h ↦ hf ⟨hb, h⟩⟩⟩
  · rw [mem_productions, mem_bodies_filterBodies] at hp
    exact mem_productions.2 hp.1

theorem mem_flatMap_productionsOf {p : Production} :
    p ∈ vs.flatMap g.productionsOf ↔ p ∈ g.productions ∧ p.head ∈ vs := by
  rw [List.mem_flatMap, mem_productions]
  simp only [productionsOf, List.mem_map]
  constructor
  · rintro ⟨v, hv, b, hb, rfl⟩
    exact ⟨hb, hv⟩
  · exact fun ⟨hb, hv⟩ ↦ ⟨p.head, hv, p.body, hb, rfl⟩

theorem isEdit_restrict {f : Symbol → Bool} (hv : ∀ v ∈ g, v ∈ vs ↔ f v = false) :
    g.IsEdit [] (vs.flatMap g.productionsOf) (g.restrict f) := by
  refine .of_removed (fun p ↦ ?_) fun p hp ↦ ?_
  · rw [mem_flatMap_productionsOf, mem_productions, mem_productions, mem_bodies_restrict, not_and]
    refine and_congr_right fun hb ↦ ?_
    rw [hv _ (mem_of_mem_bodies hb), Bool.not_eq_true]
    exact ⟨fun h _ ↦ h, fun h ↦ h hb⟩
  · rw [mem_productions, mem_bodies_restrict] at hp
    exact mem_productions.2 hp.1

theorem isEdit_remove (hb : b ∈ g.bodies v) : g.IsEdit [] [⟨v, b⟩] (g.remove v b) := by
  refine .of_removed (fun p ↦ ?_) fun p hp ↦ ?_
  · rw [List.mem_singleton, mem_productions, mem_productions, mem_bodies_remove, not_and,
      Classical.not_imp, not_not]
    constructor
    · rintro rfl
      exact ⟨hb, fun _ ↦ ⟨rfl, rfl⟩⟩
    · intro ⟨hp, h⟩
      obtain ⟨hv, hb⟩ := h hp
      obtain ⟨u, c⟩ := p
      rw [show u = v from hv, show c = b from hb]
  · rw [mem_productions, mem_bodies_remove] at hp
    exact mem_productions.2 hp.1

/-- A body makes place for another one, which may be there already. -/
theorem isEdit_replace (hb : b ∈ g.bodies v) (hne : b ≠ c) :
    g.IsEdit [⟨v, c⟩] [⟨v, b⟩] (g.replace v b c) where
  removed_subset p hp := by
    rw [List.mem_singleton.1 hp]
    exact mem_productions.2 hb
  added_subset p hp := by
    rw [List.mem_singleton.1 hp]
    exact mem_productions.2 ((mem_bodies_replace hb hne).2 (.inl rfl))
  disjoint p hp hq := by
    rw [List.mem_singleton.1 hp] at hq
    exact hne (congrArg Production.body (List.mem_singleton.1 hq))
  mem_iff p := by
    obtain ⟨u, d⟩ := p
    rw [mem_productions, mem_productions, List.mem_singleton, List.mem_singleton,
      Production.mk.injEq, Production.mk.injEq]
    by_cases hu : u = v
    · subst hu
      rw [mem_bodies_replace hb hne, or_comm]
      simp only [true_and, ne_eq]
    · rw [bodies_replace_of_ne hu]
      simp only [hu, false_and, not_false_eq_true, and_true, or_false]

theorem agrees_refl (g : Grammar) : g.agrees g = true :=
  agrees_iff.2 ⟨rfl, fun _ ↦ ⟨Iff.rfl, fun _ ↦ Iff.rfl⟩⟩

theorem agrees_eq_false_of_mem_bodies (hg : b ∈ g.bodies v) (hh : b ∉ h.bodies v) :
    h.agrees g = false :=
  Bool.eq_false_iff.2 fun ha ↦ hh (((agrees_iff.1 ha).2 v).2 b |>.2 hg)

theorem agrees_eq_false_of_mem (hg : v ∈ g) (hh : v ∉ h) : h.agrees g = false :=
  Bool.eq_false_iff.2 fun ha ↦ hh (((agrees_iff.1 ha).2 v).1.2 hg)

theorem agrees_eq_false_of_extend (hb : b ∈ bs) (hg : b ∉ g.bodies v) :
    (g.extend v bs).agrees g = false :=
  Bool.eq_false_iff.2 fun ha ↦
    hg (((agrees_iff.1 ha).2 v).2 b |>.1 (mem_bodies_extend.2 (.inr ⟨rfl, hb⟩)))

theorem agrees_eq_false_of_news (h : g.news v bs ≠ []) :
    (g.extend v (g.news v bs)).agrees g = false := by
  obtain ⟨b, hb⟩ := List.exists_mem_of_ne_nil _ h
  exact agrees_eq_false_of_extend hb (mem_news.1 hb).2

theorem IsEdit.agrees_eq_false {p : Production} (hg : g.IsEdit added removed h) (hp : p ∈ removed) :
    h.agrees g = false := by
  refine agrees_eq_false_of_mem_bodies (mem_productions.1 (hg.removed_subset hp)) fun hb ↦ ?_
  rcases (hg.mem_iff p).1 (mem_productions.2 hb) with ⟨-, hn⟩ | ha
  · exact hn hp
  · exact hg.disjoint p hp ha

end Grammar

inductive IsReplay : Grammar → List Event → Grammar → Prop
  | nil (g : Grammar) : IsReplay g [] g
  | cons {g h : Grammar} {e : Event} {es : List Event} :
      g.IsEdit e.added e.removed e.snapshot.grammar →
      IsReplay e.snapshot.grammar es h → IsReplay g (e :: es) h

theorem IsReplay.concat {g h : Grammar} {e : Event} {es : List Event} (hr : IsReplay g es h)
    (he : h.IsEdit e.added e.removed e.snapshot.grammar) :
    IsReplay g (es ++ [e]) e.snapshot.grammar := by
  induction hr with
  | nil => exact .cons he (.nil _)
  | cons hd _ ih => exact .cons hd (ih he)

theorem IsReplay.exists_getLast {g h : Grammar} {es : List Event} (hr : IsReplay g es h)
    (hes : es ≠ []) :
    ∃ e, es.getLast? = some e ∧ e.snapshot.grammar = h := by
  induction hr with
  | nil => exact absurd rfl hes
  | @cons g h e es _ hr ih =>
    cases es with
    | nil =>
      cases hr
      exact ⟨e, rfl, rfl⟩
    | cons d es =>
      obtain ⟨f, hf, hg⟩ := ih (List.cons_ne_nil d es)
      exact ⟨f, by rw [List.getLast?_cons_cons, hf], hg⟩

def KeepsStart (v : Symbol) (es : List Event) : Prop :=
  ∀ e ∈ es, e.action ≠ .introduceStart ∧ e.snapshot.grammar.start = v

def Stage.index (stage : Stage) : Nat := all.idxOf stage

def Action.Continues (stage : Stage) (a : Action) : Prop := a.stage = stage ∧ a ≠ .introduceStart

namespace Session

/-- The event shows the last snapshot, if the grammar is still the same, or a new one. A new one is
not called for unless the grammar is another or has not been shown yet. -/
structure Renews (s : Session) (e : Event) (t : Session) : Prop where
  stamp_eq : t.table.stamp = some e.snapshot.serial
  same_or_new : s.table.stamp = some e.snapshot.serial ∧ t.trace.supply = s.trace.supply ∧
    t.grammar = s.grammar ∨
    e.snapshot.serial = s.trace.supply ∧ t.trace.supply = s.trace.supply + 1 ∧
      (s.table.stamp = none ∨ t.grammar.agrees s.grammar = false)

/-- `t` is `s` with one more event, which tells how the grammar was changed and shows what came of
it. -/
structure Logs (s : Session) (e : Event) (t : Session) : Prop where
  events_eq : t.events = s.events ++ [e]
  edit : s.grammar.IsEdit e.added e.removed t.grammar
  becomes : s.grammar.Becomes t.grammar
  shown : e.snapshot.grammar = t.grammar
  renews : s.Renews e t

/-- From `s` to `t` there are only events of one stage, none of which changes the start. -/
def Reports (stage : Stage) : Session → Session → Prop :=
  Relation.ReflTransGen fun s t ↦ ∃ e, s.Logs e t ∧ e.action.Continues stage ∧
    t.grammar.start = s.grammar.start

def HaltsIn (stage : Stage) (s : Session) (halt : Halt) : Prop :=
  ∃ t, Reports stage s t ∧ halt.trace = t.trace

def Follows (s t : Session) : Prop :=
  t.grammar.start = s.grammar.start ∧ ∃ es, t.events = s.events ++ es ∧
    KeepsStart s.grammar.start es

variable {s t u : Session} {g : Grammar} {stage : Stage} {action : Action} {vars : List Symbol}
  {added removed : List Production}

theorem renews_emit :
    s.Renews ⟨action, vars, added, removed, s.publish.1⟩ (s.emit action vars added removed) := by
  obtain ⟨⟨g, stamp⟩, events, supply⟩ := s
  cases stamp with
  | some n => exact ⟨rfl, .inl ⟨rfl, rfl, rfl⟩⟩
  | none => exact ⟨rfl, .inr ⟨rfl, rfl, .inl rfl⟩⟩

theorem renews_commit (hne : g.agrees s.grammar = false) : s.Renews
    ⟨action, vars, added, removed, (s.put g).publish.1⟩ (s.commit g action vars added removed) where
  stamp_eq := rfl
  same_or_new := .inr ⟨rfl, rfl, .inr hne⟩

theorem logs_emit (h : s.grammar.IsEdit added removed s.grammar) :
    s.Logs ⟨action, vars, added, removed, s.publish.1⟩ (s.emit action vars added removed) where
  events_eq := events_emit
  edit := by rwa [grammar_emit]
  becomes := by
    rw [grammar_emit]
    exact .refl
  shown := by rw [publish_grammar, grammar_emit]
  renews := renews_emit

theorem logs_commit (h : s.grammar.IsEdit added removed g) (hb : s.grammar.Becomes g)
    (hne : g.agrees s.grammar = false) :
    s.Logs ⟨action, vars, added, removed, (s.put g).publish.1⟩
    (s.commit g action vars added removed) where
  events_eq := events_emit
  edit := by rwa [grammar_commit]
  becomes := by rwa [grammar_commit]
  shown := by
    rw [publish_grammar, grammar_commit]
    rfl
  renews := renews_commit hne

theorem Follows.refl (s : Session) : s.Follows s :=
  ⟨rfl, [], (List.append_nil _).symm, fun _ he ↦ absurd he List.not_mem_nil⟩

theorem Follows.trans (h : s.Follows t) (h' : t.Follows u) : s.Follows u := by
  obtain ⟨hs, es, hes, hk⟩ := h
  obtain ⟨ht, fs, hfs, hl⟩ := h'
  refine ⟨ht.trans hs, es ++ fs, ?_, List.forall_mem_append.2 ⟨hk, hs ▸ hl⟩⟩
  rw [hfs, hes, List.append_assoc]

namespace Reports

theorem refl (stage : Stage) (s : Session) : Reports stage s s := Relation.ReflTransGen.refl

theorem trans (h : Reports stage s t) (h' : Reports stage t u) : Reports stage s u :=
  Relation.ReflTransGen.trans h h'

theorem ends {α : Type} {x : Except Halt α} {P : α → Prop} (h : Reports stage s t)
    (hx : Ends (HaltsIn stage t) x P) : Ends (HaltsIn stage s) x P :=
  hx.imp (fun _ ⟨u, hu, he⟩ ↦ ⟨u, h.trans hu, he⟩) fun _ ha ↦ ha

theorem haltsIn_halt (stage : Stage) (s : Session) (fault : Fault) :
    HaltsIn stage s (s.halt fault) :=
  ⟨s, refl stage s, rfl⟩

theorem emit (ha : action.Continues stage) (h : s.grammar.IsEdit added removed s.grammar) :
    Reports stage s (s.emit action vars added removed) :=
  Relation.ReflTransGen.single ⟨_, logs_emit h, ha, congrArg Grammar.start (grammar_emit ..)⟩

theorem commit (ha : action.Continues stage) (h : s.grammar.IsEdit added removed g)
    (hb : s.grammar.Becomes g) (hs : g.start = s.grammar.start) (hne : g.agrees s.grammar = false) :
    Reports stage s (s.commit g action vars added removed) :=
  Relation.ReflTransGen.single ⟨_, logs_commit h hb hne, ha,
    (congrArg Grammar.start (grammar_commit ..)).trans hs⟩

theorem commit_unless {c : Bool} (ha : action.Continues stage)
    (h : s.grammar.IsEdit added removed g) (hb : s.grammar.Becomes g)
    (hs : g.start = s.grammar.start) (hne : c = false → g.agrees s.grammar = false) :
    Reports stage s (if c then s else s.commit g action vars added removed) := by
  split
  · exact refl stage s
  · rename_i hc
    exact commit ha h hb hs (hne (Bool.eq_false_iff.2 hc))

theorem note {actions : List (Action × List Symbol)} (ha : ∀ a ∈ actions, a.1.Continues stage) :
    Reports stage s (s.note actions) := by
  unfold Session.note
  induction actions generalizing s with
  | nil => exact refl stage s
  | cons a actions ih =>
    rw [List.forall_mem_cons] at ha
    exact (emit ha.1 (.refl _)).trans (ih ha.2)

theorem commitProduction {p : Production} (ha : action.Continues stage) :
    Reports stage s (s.commitProduction p action) := by
  unfold Session.commitProduction
  split
  · rename_i hp
    refine emit ha (.of_added fun q ↦ ?_)
    rw [List.mem_singleton, iff_self_or]
    intro hq
    rwa [hq, Grammar.mem_productions]
  · rename_i hp
    exact commit ha (Grammar.isEdit_extend s.grammar p.head [p.body])
      (Grammar.becomes_extend ..) rfl (Grammar.agrees_eq_false_of_extend List.mem_cons_self hp)

theorem foldl {α : Type} {f : Session → α → Session} {l : List α}
    (hf : ∀ s, ∀ a ∈ l, Reports stage s (f s a)) :
    Reports stage s (l.foldl f s) := by
  induction l generalizing s with
  | nil => exact refl stage s
  | cons a l ih =>
    exact (hf s a List.mem_cons_self).trans (ih fun s b hb ↦ hf s b (List.mem_cons_of_mem _ hb))

theorem follows (h : Reports stage s t) : s.Follows t := by
  induction h with
  | refl => exact .refl s
  | tail _ hs ih =>
    obtain ⟨e, he, ha, hst⟩ := hs
    refine ih.trans ⟨hst, [e], he.events_eq, List.forall_mem_singleton.2 ⟨ha.2, ?_⟩⟩
    rw [he.shown, hst]

end Reports

/-- The events up to now lead from `g` to the grammar on the table, stage by stage up to `stage`. -/
structure Recounts (g : Grammar) (stage : Stage) (s : Session) : Prop where
  replay : IsReplay g s.events s.grammar
  ordered : s.events.Pairwise fun d e ↦ d.action.stage.index ≤ e.action.stage.index
  index_le : ∀ e ∈ s.events, e.action.stage.index ≤ stage.index

namespace Recounts

variable {e : Event} {stage' : Stage}

theorem start (stage : Stage) (h : s.events = []) : Recounts s.grammar stage s where
  replay := h ▸ .nil _
  ordered := h ▸ .nil
  index_le _ he := absurd (h ▸ he) List.not_mem_nil

theorem logs (h : Recounts g stage s) (he : s.Logs e t) (hle : stage.index ≤ e.action.stage.index) :
    Recounts g e.action.stage t where
  replay := by
    rw [he.events_eq, ← he.shown]
    exact h.replay.concat (he.shown ▸ he.edit)
  ordered := by
    rw [he.events_eq, List.pairwise_append]
    refine ⟨h.ordered, List.pairwise_singleton _ _, fun d hd f hf ↦ ?_⟩
    rw [List.mem_singleton.1 hf]
    exact Nat.le_trans (h.index_le d hd) hle
  index_le := by
    rw [he.events_eq, List.forall_mem_append, List.forall_mem_singleton]
    exact ⟨fun d hd ↦ Nat.le_trans (h.index_le d hd) hle, Nat.le_refl _⟩

theorem reports (h : Recounts g stage s) (hr : Reports stage' s t)
    (hle : stage.index ≤ stage'.index) :
    Recounts g stage' t := by
  induction hr with
  | refl => exact ⟨h.replay, h.ordered, fun e he ↦ Nat.le_trans (h.index_le e he) hle⟩
  | tail _ hs ih =>
    obtain ⟨e, he, ⟨rfl, -⟩, -⟩ := hs
    exact ih.logs he (Nat.le_refl _)

end Recounts

end Session

end ChomskyNormalForm
