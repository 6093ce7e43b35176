import ChomskyNormalForm.Form.Helpers
import ChomskyNormalForm.Proofs.Allocator
import ChomskyNormalForm.Proofs.Form.Rewriting
import ChomskyNormalForm.Proofs.Form.UnitFree

namespace ChomskyNormalForm

/-- Work may only fail because there is no name left. -/
def Halt.IsExhaustion (h : Halt) : Prop := ∃ limit, h.fault = .namesExhausted limit

namespace TerminalHelpers

/-- What stands for a symbol in a body of several symbols. -/
def stand (helpers : TerminalHelpers) : Symbol → Symbol
  | .terminal a => (helpers.lookup a).getD (.terminal a)
  | s => s

variable {helpers more : TerminalHelpers} {a : String} {s x : Symbol}

theorem stand_of_isVar (hs : s.isVar = true) : helpers.stand s = s := by
  cases s with
  | var name => rfl
  | terminal a => exact nomatch hs
  | epsilon => exact nomatch hs
  | foreign t => exact nomatch hs

def IsFunctional (helpers : TerminalHelpers) : Prop := ∀ e ∈ helpers, helpers.lookup e.1 = some e.2

theorem mem_of_lookup (h : helpers.lookup a = some x) : (a, x) ∈ helpers := by
  obtain ⟨l, r, rfl, -⟩ := List.lookup_eq_some_iff.1 h
  simp

theorem IsFunctional.stand_terminal (h : helpers.IsFunctional) (hx : (a, x) ∈ helpers) :
    helpers.stand (.terminal a) = x := by
  rw [stand, h _ hx]
  rfl

theorem IsFunctional.append (h : helpers.IsFunctional) (ha : helpers.lookup a = none) :
    (helpers ++ [(a, x)]).IsFunctional := by
  intro e he
  rw [List.lookup_append]
  rcases List.mem_append.1 he with he | he
  · rw [h e he]
    rfl
  · obtain rfl := List.mem_singleton.1 he
    simp [ha]

end TerminalHelpers

namespace Body

variable {helpers more : TerminalHelpers} {b : Body} {I J : Interpretation}
  {f : Symbol → Symbol} {w : Word}

theorem mem_terminals {a : String} : a ∈ b.filterMap Symbol.terminal? ↔ .terminal a ∈ b := by
  rw [List.mem_filterMap]
  constructor
  · intro ⟨s, hs, hst⟩
    cases s with
    | terminal c => exact Option.some_inj.1 hst ▸ hs
    | var name => exact nomatch hst
    | epsilon => exact nomatch hst
    | foreign t => exact nomatch hst
  · exact fun h ↦ ⟨_, h, rfl⟩

def isolated (helpers : TerminalHelpers) (b : Body) : Body :=
  if b.length < 2 then b else b.map helpers.stand

theorem isolated_of_length_lt (h : b.length < 2) : b.isolated helpers = b := if_pos h

theorem isolated_of_le_length (h : 2 ≤ b.length) : b.isolated helpers = b.map helpers.stand :=
  if_neg (by omega)

theorem length_isolated (helpers : TerminalHelpers) (b : Body) :
    (b.isolated helpers).length = b.length := by
  unfold isolated
  split
  · rfl
  · exact List.length_map _

def IsCovered (helpers : TerminalHelpers) (b : Body) : Prop :=
  2 ≤ b.length → ∀ a, .terminal a ∈ b → ∃ x, (a, x) ∈ helpers

theorem IsCovered.isolated_eq (h : IsCovered helpers b) (hf : helpers.IsFunctional)
    (hm : more.IsFunctional) (hsub : helpers ⊆ more) : b.isolated more = b.isolated helpers := by
  by_cases hl : b.length < 2
  · rw [isolated_of_length_lt hl, isolated_of_length_lt hl]
  · have hl : 2 ≤ b.length := by omega
    rw [isolated_of_le_length hl, isolated_of_le_length hl]
    refine List.map_congr_left fun s hs ↦ ?_
    cases s with
    | terminal a =>
      obtain ⟨x, hx⟩ := h hl a hs
      rw [hf.stand_terminal hx, hm.stand_terminal (hsub hx)]
    | var name => rfl
    | epsilon => rfl
    | foreign t => rfl

theorem Denotes.of_map (hf : ∀ s ∈ b, ∀ w, (f s).Denotes I w → s.Denotes J w)
    (h : Body.Denotes I (b.map f) w) :
    Body.Denotes J b w := by
  induction b generalizing w with
  | nil => exact h
  | cons s b ih =>
    rw [List.forall_mem_cons] at hf
    obtain ⟨u, x, rfl, hu, hx⟩ := h
    exact ⟨u, x, rfl, hf.1 u hu, ih hf.2 hx⟩

theorem Denotes.map (hf : ∀ s ∈ b, ∀ w, s.Denotes I w → (f s).Denotes J w)
    (h : Body.Denotes I b w) :
    Body.Denotes J (b.map f) w := by
  induction b generalizing w with
  | nil => exact h
  | cons s b ih =>
    rw [List.forall_mem_cons] at hf
    obtain ⟨u, x, rfl, hu, hx⟩ := h
    exact ⟨u, x, rfl, hf.1 u hu, ih hf.2 hx⟩

end Body

/-- What holds of terminal isolation once the bodies in `done` are isolated. -/
structure Isolating (s : Session) (a : Allocator) (done : Symbol → Body → Prop)
    (i : Isolation) : Prop where
  start_eq : i.session.grammar.start = s.grammar.start
  mem : ∀ v, v ∈ i.session.grammar ↔ v ∈ s.grammar ∨ ∃ t, (t, v) ∈ i.helpers
  bodies : s.grammar.IsRewritten (Body.isolated i.helpers) done i.session.grammar
  functional : i.helpers.IsFunctional
  covered : ∀ v c, done v c → c.IsCovered i.helpers
  helper : ∀ e ∈ i.helpers, (e.2.isVar = true ∧ e.2.IsLegal) ∧ e.2 ≠ s.grammar.start ∧
    ∀ b, b ∈ i.session.grammar.bodies e.2 ↔ b = [.terminal e.1]
  origin : ∀ e ∈ i.helpers, e.2 ∈ s.grammar ∨
    ∃ v, ∃ c ∈ s.grammar.bodies v, 2 ≤ c.length ∧ .terminal e.1 ∈ c
  supply : ∃ names, a.Supplies names i.allocator ∧ i.session.helpers = s.helpers ++ names.map .var ∧
    ∀ e ∈ i.helpers, e.2 ∈ s.grammar ∨ e.2 ∈ names.map .var
  used : ∀ v ∈ i.session.grammar, v.text ∈ i.allocator.used

namespace Grammar

variable {g : Grammar} {v : Symbol} {t : String}

theorem terminalHelpers_spec (g : Grammar) : g.terminalHelpers.IsFunctional ∧
    ∀ e ∈ g.terminalHelpers, e.2 ∈ g ∧ e.2 ≠ g.start ∧ g.bodies e.2 = [[.terminal e.1]] := by
  refine List.foldlRecOn (motive := fun helpers : TerminalHelpers ↦ helpers.IsFunctional ∧
    ∀ e ∈ helpers, e.2 ∈ g ∧ e.2 ≠ g.start ∧ g.bodies e.2 = [[.terminal e.1]])
    _ _ ?_ fun helpers h v hv ↦ ?_
  · exact ⟨fun e he ↦ absurd he List.not_mem_nil, fun e he ↦ absurd he List.not_mem_nil⟩
  · rw [List.mem_filter, mem_sortedHeads, decide_eq_true_eq] at hv
    split
    · rename_i a hb
      split
      · exact h
      · rename_i ha
        rw [Bool.not_eq_true, Option.isSome_eq_false_iff, Option.isNone_iff_eq_none] at ha
        refine ⟨h.1.append ha, fun e he ↦ ?_⟩
        rcases List.mem_append.1 he with he | he
        · exact h.2 e he
        · obtain rfl := List.mem_singleton.1 he
          exact ⟨hv.1, hv.2, hb⟩
    · exact h

end Grammar

namespace Isolating

variable {s : Session} {a : Allocator} {done : Symbol → Body → Prop} {i : Isolation}
  {t : String} {b c : Body} {v : Symbol}

theorem start (hg : s.grammar.IsLegal) (hu : ∀ v ∈ s.grammar, v.text ∈ a.used) :
    Isolating s a (fun _ _ ↦ False) ⟨s, a, s.grammar.terminalHelpers⟩ := by
  obtain ⟨hf, hh⟩ := s.grammar.terminalHelpers_spec
  refine ⟨rfl, fun v ↦ ?_, .start _ _, hf, fun _ _ h ↦ h.elim, fun e he ↦ ?_,
    fun e he ↦ .inl (hh e he).1, ⟨[], .refl a, by simp, fun e he ↦ .inl (hh e he).1⟩, hu⟩
  · refine (or_iff_left_iff_imp.2 ?_).symm
    intro ⟨t, ht⟩
    exact (hh _ ht).1
  · obtain ⟨hm, hne, hb⟩ := hh e he
    exact ⟨hg.head _ hm, hne, by simp [hb]⟩

theorem addHelper {name : String} {allocator : Allocator} (h : Isolating s a done i)
    (hs : s.grammar.start ∈ s.grammar) (hc : c ∈ s.grammar.bodies v) (hl : 2 ≤ c.length)
    (ht : .terminal t ∈ c) (hnone : i.helpers.lookup t = none)
    (ha : i.allocator.Supplies [name] allocator) :
    Isolating s a done ⟨i.session.commitProduction ⟨.var name, [.terminal t]⟩
      (.createHelper (.var name) t), allocator, i.helpers ++ [(t, .var name)]⟩ := by
  have hname : name ∉ i.allocator.used := ha.fresh name (List.mem_singleton_self name)
  have hnew : Symbol.var name ∉ i.session.grammar := fun hm ↦ hname (h.used _ hm)
  have hne : ∀ u ∈ i.session.grammar, u ≠ .var name := fun u hu he ↦ hnew (he ▸ hu)
  have hold : ∀ u ∈ s.grammar, u ∈ i.session.grammar := fun u hu ↦ (h.mem u).2 (.inl hu)
  have hbodies : ∀ u ∈ i.session.grammar, ∀ b,
      b ∈ (i.session.commitProduction ⟨.var name, [.terminal t]⟩
        (.createHelper (.var name) t)).grammar.bodies u ↔
        b ∈ i.session.grammar.bodies u := by
    intro u hu b
    rw [Session.mem_bodies_commitProduction, or_iff_left_iff_imp]
    exact fun hb ↦ absurd hb.1 (hne u hu)
  have hfun := h.functional.append (x := .var name) hnone
  have hsub : i.helpers ⊆ i.helpers ++ [(t, .var name)] := List.subset_append_left _ _
  constructor
  case start_eq => exact Session.start_commitProduction.trans h.start_eq
  case mem =>
    intro u
    rw [Session.mem_commitProduction, h.mem, or_assoc]
    simp [exists_or]
  case bodies =>
    refine h.bodies.congr (fun u d hd ↦ ?_) fun u hu ↦ hbodies u (hold u hu)
    exact (h.covered u d hd).isolated_eq h.functional hfun hsub
  case functional => exact hfun
  case covered =>
    intro u d hd hlen r hr
    obtain ⟨x, hx⟩ := h.covered u d hd hlen r hr
    exact ⟨x, hsub hx⟩
  case helper =>
    refine List.forall_mem_append.2 ⟨fun e he ↦ ?_,
      List.forall_mem_singleton.2 ⟨⟨rfl, ?_⟩, fun heq ↦ ?_, fun b ↦ ?_⟩⟩
    · obtain ⟨hvar, hst, hb⟩ := h.helper e he
      exact ⟨hvar, hst, fun b ↦ (hbodies _ ((h.mem _).2 (.inr ⟨e.1, he⟩)) b).trans (hb b)⟩
    · exact ha.legal name (List.mem_singleton_self name)
    · exact hne _ (hold _ hs) heq.symm
    · rw [Session.mem_bodies_commitProduction, Grammar.bodies_of_not_mem hnew]
      simp
  case origin =>
    exact List.forall_mem_append.2 ⟨h.origin, List.forall_mem_singleton.2 (.inr ⟨v, c, hc, hl, ht⟩)⟩
  case supply =>
    obtain ⟨names, hsup, hhelp, hin⟩ := h.supply
    refine ⟨names ++ [name], hsup.append ha, ?_, ?_⟩
    · rw [Session.helpers_commitProduction, hhelp, List.map_append, List.append_assoc]
      rfl
    · rw [List.map_append, List.forall_mem_append, List.forall_mem_singleton]
      refine ⟨fun e he ↦ (hin e he).imp_right (List.mem_append_left _),
        .inr (List.mem_append_right _ ?_)⟩
      exact List.mem_singleton_self _
  case used =>
    intro u hu
    rw [ha.used, List.mem_singleton]
    rcases Session.mem_commitProduction.1 hu with hu | rfl
    · exact .inl (h.used u hu)
    · exact .inr rfl

theorem ends_helperFor (h : Isolating s a done i) (hs : s.grammar.start ∈ s.grammar)
    (hc : c ∈ s.grammar.bodies v) (hl : 2 ≤ c.length) (ht : .terminal t ∈ c) :
    Ends Halt.IsExhaustion (i.helperFor t)
      fun r ↦ Isolating s a done r.2 ∧ i.helpers ⊆ r.2.helpers ∧ (t, r.1) ∈ r.2.helpers := by
  unfold Isolation.helperFor
  split
  · rename_i x hx
    exact ⟨h, List.Subset.refl _, TerminalHelpers.mem_of_lookup hx⟩
  · rename_i hnone
    split
    · exact ⟨_, rfl⟩
    · rename_i name allocator ha
      have hadd := h.addHelper hs hc hl ht hnone (Allocator.supplies_allocate ha)
      exact ⟨hadd, List.subset_append_left _ _, List.mem_append_right _ (List.mem_singleton_self _)⟩

theorem ends_isolate (h : Isolating s a done i) (hs : s.grammar.start ∈ s.grammar)
    (hc : c ∈ s.grammar.bodies v) (hl : 2 ≤ c.length) (hb : b ⊆ c) :
    Ends Halt.IsExhaustion (i.isolate b)
      fun r ↦ Isolating s a done r.2 ∧ i.helpers ⊆ r.2.helpers ∧ r.1 = b.map r.2.helpers.stand ∧
        ∀ t, .terminal t ∈ b → ∃ x, (t, x) ∈ r.2.helpers := by
  induction b generalizing i with
  | nil => exact ⟨h, List.Subset.refl _, rfl, fun t ht ↦ absurd ht List.not_mem_nil⟩
  | cons r b ih =>
    have hb' : b ⊆ c := fun _ hm ↦ hb (List.mem_cons_of_mem _ hm)
    have keep : (∀ t, r ≠ .terminal t) → Ends Halt.IsExhaustion
        (i.isolate b >>= fun p ↦ .ok (r :: p.1, p.2)) fun q ↦ Isolating s a done q.2 ∧
        i.helpers ⊆ q.2.helpers ∧
          q.1 = (r :: b).map q.2.helpers.stand ∧ ∀ t, .terminal t ∈ r :: b →
          ∃ x, (t, x) ∈ q.2.helpers := by
      intro hr
      refine (ih h hb').bind fun ⟨d, j⟩ ⟨hj, hsub, hd, hcov⟩ ↦ ⟨hj, hsub, ?_, fun t ht ↦ ?_⟩
      · dsimp only at hd ⊢
        rw [List.map_cons, ← hd]
        cases r with
        | terminal t => exact absurd rfl (hr t)
        | var name => rfl
        | epsilon => rfl
        | foreign t => rfl
      · exact hcov t ((List.mem_cons.1 ht).resolve_left fun he ↦ hr t he.symm)
    cases r with
    | terminal t =>
      refine (h.ends_helperFor hs hc hl (hb List.mem_cons_self)).bind fun ⟨x, j⟩ ⟨hj, hsub, hx⟩ ↦ ?_
      refine (ih hj hb').bind fun ⟨d, k⟩ ⟨hk, hsub', hd, hcov⟩ ↦
        ⟨hk, List.Subset.trans hsub hsub', ?_, fun r hr ↦ ?_⟩
      · dsimp only at hd hx hsub' ⊢
        rw [List.map_cons, ← hd, hk.functional.stand_terminal (hsub' hx)]
      · rcases List.mem_cons.1 hr with he | hr
        · cases he
          exact ⟨x, hsub' hx⟩
        · exact hcov r hr
    | var name => exact keep (fun t ↦ Symbol.noConfusion)
    | epsilon => exact keep (fun t ↦ Symbol.noConfusion)
    | foreign u => exact keep (fun t ↦ Symbol.noConfusion)

theorem skip (h : Isolating s a done i) (hb : b ∈ s.grammar.bodies v) (hcov : b.IsCovered i.helpers)
    (hsame : b.isolated i.helpers = b) : Isolating s a (fun u c ↦ done u c ∨ u = v ∧ c = b) i := by
  refine ⟨h.start_eq, h.mem, h.bodies.skip hb hsame, h.functional, fun u c hd ↦ ?_, h.helper,
    h.origin, h.supply, h.used⟩
  rcases hd with hd | ⟨rfl, rfl⟩
  · exact h.covered u c hd
  · exact hcov

theorem terminal_not_mem_map (h : Isolating s a done i) (hc : c.IsCovered i.helpers)
    (hl : 2 ≤ c.length) :
    .terminal t ∉ c.map i.helpers.stand := by
  intro hm
  obtain ⟨r, hr, hrt⟩ := List.mem_map.1 hm
  cases r with
  | terminal r =>
    obtain ⟨x, hx⟩ := hc hl r hr
    rw [h.functional.stand_terminal hx] at hrt
    have hxv := (h.helper _ hx).1.1
    rw [hrt] at hxv
    exact nomatch hxv
  | var name => exact nomatch hrt
  | epsilon => exact nomatch hrt
  | foreign r => exact nomatch hrt

/-- A body of several symbols makes place for itself with helpers in the place of its terminals. -/
theorem exchange {action : Action} {vars : List Symbol} {added removed : List Production}
    (h : Isolating s a done i) (hb : b ∈ s.grammar.bodies v) (hd : ¬done v b) (hl : 2 ≤ b.length)
    (ht : ∃ t, .terminal t ∈ b) (hcov : ∀ t, .terminal t ∈ b → ∃ x, (t, x) ∈ i.helpers)
    (ha : action.helpers vars = []) :
    Isolating s a (fun u c ↦ done u c ∨ u = v ∧ c = b)
      ⟨i.session.commit (i.session.grammar.replace v b (b.map i.helpers.stand))
        action vars added removed, i.allocator, i.helpers⟩ := by
  have hv : v ∈ s.grammar := Grammar.mem_of_mem_bodies hb
  have hiso : b.isolated i.helpers = b.map i.helpers.stand := Body.isolated_of_le_length hl
  have hne : b ≠ b.map i.helpers.stand := by
    obtain ⟨t, ht⟩ := ht
    exact fun he ↦ h.terminal_not_mem_map (fun _ ↦ hcov) hl (he ▸ ht)
  have hold : b ∈ i.session.grammar.bodies v := (h.bodies v hv b).2 (.inr ⟨hb, hd⟩)
  have hvi : v ∈ i.session.grammar := (h.mem v).2 (.inl hv)
  have hisone : ∀ c, done v c → c.isolated i.helpers ≠ b := by
    intro c hc he
    subst he
    by_cases hlc : c.length < 2
    · rw [Body.isolated_of_length_lt hlc] at hl
      omega
    · have hlc : 2 ≤ c.length := by omega
      obtain ⟨t, ht⟩ := ht
      rw [Body.isolated_of_le_length hlc] at ht
      exact h.terminal_not_mem_map (h.covered v c hc) hlc ht
  constructor
  case start_eq => rw [Session.grammar_commit, Grammar.start_replace, h.start_eq]
  case mem =>
    intro u
    rw [Session.grammar_commit, Grammar.mem_replace_of_mem hvi, h.mem]
  case bodies =>
    refine h.bodies.exchange hb hd hisone (fun c ↦ ?_) fun u _ huv c ↦ ?_
    · rw [Session.grammar_commit, Grammar.mem_bodies_replace hold hne, hiso]
    · rw [Session.grammar_commit, Grammar.bodies_replace_of_ne huv]
  case functional => exact h.functional
  case covered =>
    intro u c hx
    rcases hx with hdone | ⟨rfl, rfl⟩
    · exact h.covered u c hdone
    · exact fun _ ↦ hcov
  case helper =>
    intro e he
    obtain ⟨hev, hes, heb⟩ := h.helper e he
    refine ⟨hev, hes, fun c ↦ ?_⟩
    have hev' : e.2 ≠ v := by
      intro hx
      subst hx
      rw [heb] at hold
      rw [hold] at hl
      simp at hl
    rw [Session.grammar_commit, Grammar.bodies_replace_of_ne hev', heb]
  case origin => exact h.origin
  case supply =>
    obtain ⟨names, hsup, hhelp, hin⟩ := h.supply
    exact ⟨names, hsup, (Session.helpers_commit_of_eq_nil ha).trans hhelp, hin⟩
  case used =>
    intro u hu
    rw [Session.grammar_commit, Grammar.mem_replace_of_mem hvi] at hu
    exact h.used u hu

theorem ends_body (h : Isolating s a done i) (hs : s.grammar.start ∈ s.grammar)
    (hb : b ∈ s.grammar.bodies v) (hd : ¬done v b) : Ends Halt.IsExhaustion (Isolation.body v i b)
      (Isolating s a fun u c ↦ done u c ∨ u = v ∧ c = b) := by
  unfold Isolation.body
  split
  · rename_i hskip
    rw [Bool.or_eq_true, decide_eq_true_eq, List.isEmpty_iff,
      List.eq_nil_iff_forall_not_mem] at hskip
    have hnone : ¬b.length < 2 → ∀ r ∈ b, ∀ t, r ≠ .terminal t := by
      intro hl r hr t hx
      exact hskip.resolve_left hl t (Body.mem_terminals.2 (hx ▸ hr))
    refine h.skip hb (fun hl t ht ↦ absurd rfl (hnone (by omega) _ ht t)) ?_
    by_cases hl : b.length < 2
    · exact Body.isolated_of_length_lt hl
    · rw [Body.isolated_of_le_length (by omega)]
      refine (List.map_congr_left fun r hr ↦ ?_).trans (List.map_id b)
      cases r with
      | terminal t => exact absurd rfl (hnone hl _ hr t)
      | var name => rfl
      | epsilon => rfl
      | foreign t => rfl
  · rename_i hwork
    rw [Bool.or_eq_true, not_or, decide_eq_true_eq, List.isEmpty_iff] at hwork
    have hl : 2 ≤ b.length := by omega
    have ht : ∃ t, .terminal t ∈ b := by
      obtain ⟨t, ht⟩ := List.exists_mem_of_ne_nil _ hwork.2
      exact ⟨t, Body.mem_terminals.1 ht⟩
    refine (h.ends_isolate hs hb hl (List.Subset.refl b)).bind fun ⟨c, j⟩ ⟨hj, hsub, hc, hcov⟩ ↦ ?_
    dsimp only at hj hsub hc hcov ⊢
    subst hc
    apply hj.exchange hb hd hl ht hcov
    rfl

end Isolating

namespace Session

variable {s : Session} {a : Allocator}

theorem ends_isolateTerminals_keeping {R : Isolation → Prop} (hg : s.grammar.IsLegal)
    (hu : ∀ v ∈ s.grammar, v.text ∈ a.used) (start : R ⟨s, a, s.grammar.terminalHelpers⟩)
    (step : ∀ v i b j, R i → b ∈ s.grammar.bodies v → Isolation.body v i b = .ok j → R j) :
    Ends Halt.IsExhaustion (s.isolateTerminals a) fun r ↦
      ∃ i, r = (i.session, i.allocator) ∧ Isolating s a (fun v b ↦ b ∈ s.grammar.bodies v) i ∧
        R i := by
  have hfold : Ends Halt.IsExhaustion (s.grammar.sortedHeads.foldlM
      (fun i v ↦ (i.session.grammar.bodies v).foldlM (Isolation.body v) i)
      ⟨s, a, s.grammar.terminalHelpers⟩) fun i ↦ Isolating s a (fun v b ↦
      b ∈ s.grammar.bodies v) i ∧ R i := by
    refine Grammar.ends_foldlM_sortedHeads (P := fun done i ↦ Isolating s a done i ∧ R i)
      (fun _ _ _ hi hv hd _ ↦ hi.1.bodies.mem_bodies_iff hv hd) (fun done i v b hi hb hd ↦ ?_)
      ⟨.start hg hu, start⟩
    exact (hi.1.ends_body hg.start_mem hb hd).and fun j hj ↦ step v i b j hi.2 hb hj
  exact hfold.bind fun i hi ↦ ⟨i, rfl, hi⟩

theorem ends_isolateTerminals (hg : s.grammar.IsLegal) (hu : ∀ v ∈ s.grammar, v.text ∈ a.used) :
    Ends Halt.IsExhaustion (s.isolateTerminals a)
      fun r ↦ ∃ i, r = (i.session, i.allocator) ∧
      Isolating s a (fun v b ↦ b ∈ s.grammar.bodies v) i := by
  refine (ends_isolateTerminals_keeping (R := fun _ ↦ True)
    hg hu trivial fun _ _ _ _ h _ _ ↦ h).mono ?_
  exact fun r ⟨i, hr, hi, _⟩ ↦ ⟨i, hr, hi⟩

end Session

end ChomskyNormalForm
