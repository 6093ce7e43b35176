import ChomskyNormalForm.Proofs.Form.StartExpansion
import ChomskyNormalForm.Proofs.Form.UnitUnion

namespace ChomskyNormalForm

namespace Grammar

variable {g e p t : Grammar} {u v : Symbol} {b : Body} {w : Word}

theorem IsProtected.isUnit_eq_false (hp : e.IsProtected p) (he : g.IsUnitExpanded e)
    (hg : g.IsLegal) (hb : b ∈ p.bodies v) : b.isUnit = false :=
  ((hp.bodies v b).1 hb).isUnit (he.isLegal hg) fun u c hc ↦ ((he.bodies u c).1 hc).1

theorem IsCleared.start_not_mem (ht : p.IsCleared t) (hp : e.IsProtected p) (hv : v ≠ t.start)
    (hb : b ∈ t.bodies v) : t.start ∉ b := by
  have hs : t.start = e.start := ht.start_eq.trans hp.start_eq
  rw [hs] at hv ⊢
  exact hp.start_not_mem hv (ht.mem_bodies hb)

/-- What the start has once the bodies along unit productions have come in can take its place
elsewhere. -/
theorem IsUnitExpanded.own_bodies (he : g.IsUnitExpanded e) (heps : ∀ v, Body.epsilon ∉ g.bodies v)
    (hown : ∀ u, g.UnitReaches g.start u → ∀ b ∈ g.bodies u, b.isUnit = false → g.start ∉ b) :
    ∀ b ∈ e.bodies e.start, b ≠ Body.epsilon ∧ e.start ∉ b := by
  rw [he.start_eq]
  intro b hb
  have hunit := ((he.bodies _ b).1 hb).1
  obtain ⟨u, hu, hbu⟩ := he.exists_of_mem hb
  exact ⟨fun h ↦ heps u (h ▸ hbu), hown u hu b hbu hunit⟩

theorem forall_unitReaches {P : Symbol → Symbol → Body → Prop}
    (h : ∀ v ∈ g.heads, ∀ u ∈ g.unitReachable v, ∀ b ∈ g.bodies u, P v u b) :
    ∀ v u, g.UnitReaches v u → ∀ b ∈ g.bodies u, P v u b :=
  fun v u hu b hb ↦ h v (hu.mem (mem_of_mem_bodies hb)) u (mem_unitReachable.2 hu) b hb

end Grammar

namespace Session

open Grammar

variable {s x : Session}

theorem ends_eliminateUnits (hx : s.expandUnits = .ok x) (hs : x.grammar.start ∈ x.grammar) :
    Ends (fun h ↦ ∃ v, v ≠ x.grammar.start ∧ StopsAt x.grammar v h) s.eliminateUnits fun t ↦
      ¬x.grammar.IsBlocked ∧ ∃ p, x.grammar.IsProtected p ∧ p.IsCleared t.grammar := by
  rw [eliminateUnits_eq, hx, ok_bind]
  refine (ends_protectStart x).bind fun y ⟨hy, hblocked⟩ ↦ ?_
  obtain ⟨t, ht, -, hclear⟩ := exists_clear (s := y) ((hy.mem _).2 (hy.start_eq ▸ hs))
  rw [ht]
  exact ⟨hblocked, y.grammar, hy, hclear⟩

/-- The elimination of unit productions fails only where the start is needed in a body of another
variable and has nothing to put in its place. Otherwise the start stands in its own bodies only, and
no variable has a new word. -/
theorem eliminateUnits_protects_start (hc : s.grammar.check = .ok ()) :
    ∃ x, s.expandUnits = .ok x ∧ s.grammar.IsUnitExpanded x.grammar ∧
      (x.grammar.IsBlocked ↔ ∃ h, s.eliminateUnits = .error h ∧ ∃ v, v ≠ s.grammar.start ∧
        ∃ b ∈ x.grammar.bodies v, s.grammar.start ∈ b ∧
        h.fault = .inexpansible s.grammar.start v b) ∧
      (¬x.grammar.IsBlocked → ∃ t, s.eliminateUnits = .ok t ∧ t.grammar.start = s.grammar.start ∧
        (∀ v, ∀ b ∈ t.grammar.bodies v, b.isUnit = false) ∧
        (∀ v, v ≠ t.grammar.start → ∀ b ∈ t.grammar.bodies v, t.grammar.start ∉ b) ∧
        (∀ v, ∀ b ∈ t.grammar.bodies v, ∀ u ∈ Body.vars b, u ∈ t.grammar) ∧
        (∀ v ∈ t.grammar, t.grammar.Reaches t.grammar.start v ∧
          (v ≠ t.grammar.start → t.grammar.IsProductive v)) ∧
        ∀ v w, t.grammar.Derives v w → s.grammar.Derives v w) := by
  have hg := Grammar.check_eq_ok_iff.1 hc
  obtain ⟨x, hx, -, hexp⟩ := exists_expandUnits s
  have hlegal := hexp.isLegal hg
  have hends := ends_eliminateUnits hx hlegal.start_mem
  refine ⟨x, hx, hexp, ?_⟩
  cases hres : s.eliminateUnits with
  | error h =>
    rw [hres] at hends
    obtain ⟨v, hne, hstop⟩ := hends
    have hblocked := hstop.isBlocked hne
    refine ⟨iff_of_true hblocked ⟨h, rfl, v, hexp.start_eq ▸ hne, ?_⟩,
      fun hfree ↦ absurd hblocked hfree⟩
    exact hexp.start_eq ▸ hstop.2
  | ok t =>
    obtain ⟨hfree, p, hp, ht⟩ := hends.of_ok hres
    refine ⟨iff_of_false hfree (fun ⟨_, h, _⟩ ↦ nomatch h),
      fun _ ↦ ⟨t, rfl, ?_, fun v b hb ↦ ?_, fun v hv b hb ↦ ?_, fun v b hb u hu ↦ ?_,
        fun v hv ↦ ⟨((ht.mem v).1 hv).2, ?_⟩, fun v w hw ↦ ?_⟩⟩
    · exact ht.start_eq.trans (hp.start_eq.trans hexp.start_eq)
    · exact hp.isUnit_eq_false hexp hg (ht.mem_bodies hb)
    · exact ht.start_not_mem hp hv hb
    · exact ht.closed ⟨b, hb, hu⟩
    · exact ht.isProductive (hp.isLegal hlegal).isProper hv
    · exact hexp.derives (hp.derives hlegal (hw.mono fun _ _ ↦ ht.mem_bodies))

end Session

/-- The start stands twice in a body of `A`, and `B` leads back to the start. -/
def Grammar.tangled : Grammar :=
  ⟨.var "S",
    .ofEntries [(.var "S", [[.terminal "a", .var "A"], [.var "S", .terminal "b"], [.terminal "b"]]),
      (.var "A", [[.var "S", .var "A", .var "S"], [.var "B"]]),
    (.var "B", [[.terminal "c", .var "S"], [.var "S"]])]⟩

theorem Session.eliminateUnits_protects_start_tangled : Grammar.tangled.check = .ok () ∧
    ∃ x, (ofGrammar .tangled).expandUnits = .ok x ∧ Grammar.tangled.IsUnitExpanded x.grammar ∧
      (x.grammar.IsBlocked ↔ ∃ h, (ofGrammar .tangled).eliminateUnits = .error h ∧
        ∃ v, v ≠ Grammar.tangled.start ∧ ∃ b ∈ x.grammar.bodies v, Grammar.tangled.start ∈ b ∧
          h.fault = .inexpansible Grammar.tangled.start v b) ∧
      (¬x.grammar.IsBlocked → ∃ t, (ofGrammar .tangled).eliminateUnits = .ok t ∧
        t.grammar.start = Grammar.tangled.start ∧
        (∀ v, ∀ b ∈ t.grammar.bodies v, b.isUnit = false) ∧
        (∀ v, v ≠ t.grammar.start → ∀ b ∈ t.grammar.bodies v, t.grammar.start ∉ b) ∧
        (∀ v, ∀ b ∈ t.grammar.bodies v, ∀ u ∈ Body.vars b, u ∈ t.grammar) ∧
        (∀ v ∈ t.grammar, t.grammar.Reaches t.grammar.start v ∧
          (v ≠ t.grammar.start → t.grammar.IsProductive v)) ∧
        ∀ v w, t.grammar.Derives v w → Grammar.tangled.Derives v w) :=
  ⟨rfl, eliminateUnits_protects_start (s := .ofGrammar .tangled) rfl⟩

example :
    (match (Session.ofGrammar ⟨.var "S",
      .ofEntries [(.var "S", [[.terminal "a", .var "S"], [.epsilon]]),
        (.var "A", [[.var "A"], [.var "S", .terminal "b"]])]⟩).eliminateUnits with
    | .error ⟨.inexpansible start v b, _⟩ =>
      (start, v, b) = (.var "S", .var "A", [.var "S", .terminal "b"])
    | _ => false) = true := by decide +kernel

namespace Session

open Grammar

variable {s t : Session}

/-- Where no body has to be left behind, and the start has only bodies that can take its place,
every variable that is left keeps its words. -/
theorem eliminateUnits_keeps_words (hc : s.grammar.check = .ok ())
    (heps : ∀ v, Body.epsilon ∉ s.grammar.bodies v)
    (hcopy : ∀ v, v ≠ s.grammar.start → ∀ u, s.grammar.UnitReaches v u → u ≠ v →
      ∀ b ∈ s.grammar.bodies u, b.isUnit = false → s.grammar.start ∉ b)
    (hown : ∀ u, s.grammar.UnitReaches s.grammar.start u →
      ∀ b ∈ s.grammar.bodies u, b.isUnit = false → s.grammar.start ∉ b)
    (ht : s.eliminateUnits = .ok t) :
    t.grammar.start = s.grammar.start ∧ t.grammar.start ∈ t.grammar ∧
      ∀ v ∈ t.grammar, ∀ w, t.grammar.Derives v w ↔ s.grammar.Derives v w := by
  have hg := Grammar.check_eq_ok_iff.1 hc
  obtain ⟨x, hx, -, hexp⟩ := exists_expandUnits s
  have hlegal := hexp.isLegal hg
  obtain ⟨-, p, hp, hclear⟩ := (ends_eliminateUnits hx hlegal.start_mem).of_ok ht
  have hcopyable : s.grammar.IsCopyable := by
    intro v u hu hne b hb hunit
    exact ⟨fun he ↦ heps u (he ▸ hb), or_iff_not_imp_left.2 fun hv ↦ hcopy v hv u hu hne b hb hunit⟩
  refine ⟨hclear.start_eq.trans (hp.start_eq.trans hexp.start_eq), hclear.start_mem,
    fun v hv w ↦ ?_⟩
  calc t.grammar.Derives v w ↔ p.Derives v w := hclear.derives_iff hv
    _ ↔ x.grammar.Derives v w := hp.derives_iff hlegal (hexp.own_bodies heps hown)
    _ ↔ s.grammar.Derives v w := hexp.derives_iff hg hcopyable

end Session

def Grammar.doubled : Grammar :=
  ⟨.var "S", .ofEntries [(.var "S", [[.terminal "a", .var "A"], [.var "C"]]),
    (.var "A", [[.terminal "c", .var "S", .var "S"], [.var "B"]]), (.var "B", [[.terminal "d"]]),
    (.var "C", [[.terminal "b"]])]⟩

theorem Session.eliminateUnits_keeps_words_doubled : Grammar.doubled.check = .ok () ∧
    (∀ v, Body.epsilon ∉ Grammar.doubled.bodies v) ∧
    (∀ v, v ≠ Grammar.doubled.start → ∀ u, Grammar.doubled.UnitReaches v u → u ≠ v →
      ∀ b ∈ Grammar.doubled.bodies u, b.isUnit = false → Grammar.doubled.start ∉ b) ∧
    (∀ u, Grammar.doubled.UnitReaches Grammar.doubled.start u →
      ∀ b ∈ Grammar.doubled.bodies u, b.isUnit = false → Grammar.doubled.start ∉ b) ∧
    ∃ t, (ofGrammar .doubled).eliminateUnits = .ok t ∧
      t.grammar.start = Grammar.doubled.start ∧ t.grammar.start ∈ t.grammar ∧
      ∀ v ∈ t.grammar, ∀ w, t.grammar.Derives v w ↔ Grammar.doubled.Derives v w := by
  have heps : ∀ v, ∀ b ∈ Grammar.doubled.bodies v, b ≠ Body.epsilon :=
    Grammar.forall_mem_bodies (by decide)
  have hcopy : ∀ v u, Grammar.doubled.UnitReaches v u → ∀ b ∈ Grammar.doubled.bodies u,
      v ≠ Grammar.doubled.start → u ≠ v → b.isUnit = false → Grammar.doubled.start ∉ b :=
    Grammar.forall_unitReaches (by decide +kernel)
  have hown : ∀ v u, Grammar.doubled.UnitReaches v u → ∀ b ∈ Grammar.doubled.bodies u,
      v = Grammar.doubled.start → b.isUnit = false → Grammar.doubled.start ∉ b :=
    Grammar.forall_unitReaches (by decide +kernel)
  have hok : (ofGrammar .doubled).eliminateUnits.toOption.isSome = true := by decide +kernel
  obtain ⟨t, ht⟩ : ∃ t, (ofGrammar .doubled).eliminateUnits = .ok t := by
    cases h : (ofGrammar .doubled).eliminateUnits with
    | ok t => exact ⟨t, rfl⟩
    | error e =>
      rw [h] at hok
      exact nomatch hok
  refine ⟨rfl, fun v hb ↦ heps v _ hb rfl, fun v hv u hu hne b hb ↦ hcopy v u hu b hb hv hne,
    fun u hu b hb ↦ hown _ u hu b hb rfl, t, ht, ?_⟩
  exact eliminateUnits_keeps_words (s := .ofGrammar .doubled) rfl (fun v hb ↦ heps v _ hb rfl)
    (fun v hv u hu hne b hb ↦ hcopy v u hu b hb hv hne) (fun u hu b hb ↦ hown _ u hu b hb rfl) ht

end ChomskyNormalForm
