import ChomskyNormalForm.Form.Normal
import ChomskyNormalForm.Proofs.Grammar.Violation

namespace ChomskyNormalForm

/-- `u` holds the useful part `t` of `g` behind the new start `fresh`, without empty words and unit
productions. -/
structure Prepared (g t : Grammar) (fresh : Symbol) (u : Grammar) : Prop where
  trimmed : g.IsTrimmed t
  not_mem : fresh ∉ g
  legal : fresh.isVar = true ∧ fresh.IsLegal
  stages : ∃ e p x, t.IsExpanded fresh e ∧ e.IsPruned p ∧ p.IsUnitExpanded x ∧ x.IsTrimmed u

namespace Prepared

variable {g t u : Grammar} {fresh v : Symbol} {w : Word}

theorem not_mem_trimmed (h : Prepared g t fresh u) : fresh ∉ t :=
  fun hf ↦ h.not_mem (h.trimmed.subset hf)

theorem start_eq (h : Prepared g t fresh u) : u.start = fresh := by
  obtain ⟨e, p, x, he, hp, hx, hu⟩ := h.stages
  rw [hu.start_eq, hx.start_eq, hp.start_eq, he.start_eq]

theorem mem (h : Prepared g t fresh u) (hv : v ∈ u) : v ∈ t ∨ v = fresh := by
  obtain ⟨e, p, x, he, hp, hx, hu⟩ := h.stages
  exact (he.mem v).1 (hp.mem v ((hx.mem v).1 (hu.subset hv)))

theorem isUnitFree (h : Prepared g t fresh u) (hg : g.IsLegal) (hs : g.IsProductive g.start) :
    u.IsUnitFree := by
  obtain ⟨e, p, x, he, hp, hx, hu⟩ := h.stages
  have ht := h.trimmed.isLegal hg hs
  have hfree := hp.isEpsilonFree (he.isEpsilonFree ht h.not_mem_trimmed h.legal)
  refine hx.isUnitFree hu hfree ?_
  obtain ⟨w, hw⟩ := hs
  rw [← h.trimmed.start_eq, ← h.trimmed.derives_iff ht.start_mem] at hw
  refine ⟨w, ?_⟩
  rw [hp.start_eq, he.start_eq]
  exact hp.derives_iff.2 ((he.derives_start_iff ht h.not_mem_trimmed).2 hw)

theorem derives_iff (h : Prepared g t fresh u) (hg : g.IsLegal)
    (hs : g.IsProductive g.start) (hv : v ∈ u) (hvt : v ∈ t) :
    u.Derives v w ↔ g.Derives v w ∧ w ≠ [] := by
  obtain ⟨e, p, x, he, hp, hx, hu⟩ := h.stages
  have ht := h.trimmed.isLegal hg hs
  have hfree := hp.isEpsilonFree (he.isEpsilonFree ht h.not_mem_trimmed h.legal)
  rw [hu.derives_iff hv, hx.derives_iff hfree.legal hfree.isCopyable, hp.derives_iff,
    he.derives_iff ht h.not_mem_trimmed hvt, h.trimmed.derives_iff hvt]

theorem derives_start_iff (h : Prepared g t fresh u) (hg : g.IsLegal)
    (hs : g.IsProductive g.start) :
    u.Derives fresh w ↔ g.Derives g.start w := by
  have hmem : fresh ∈ u := h.start_eq ▸ (h.isUnitFree hg hs).legal.start_mem
  obtain ⟨e, p, x, he, hp, hx, hu⟩ := h.stages
  have ht := h.trimmed.isLegal hg hs
  have hfree := hp.isEpsilonFree (he.isEpsilonFree ht h.not_mem_trimmed h.legal)
  rw [hu.derives_iff hmem, hx.derives_iff hfree.legal hfree.isCopyable, hp.derives_iff,
    he.derives_start_iff ht h.not_mem_trimmed, h.trimmed.derives_iff ht.start_mem,
    h.trimmed.start_eq]

end Prepared

namespace Session

variable {s : Session} {t : Grammar}

def conclude (s : Session) (t : Grammar) : Except Halt Normalization := do
  let problems := s.grammar.violations
  if !problems.isEmpty then throw (s.halt (.notNormal (problems.map (·.message))))
  let g := s.grammar
  let (s, cycle) := s.decideFiniteness
  return ⟨t, g, false, some (!cycle.isEmpty), cycle, s⟩

def supply (s : Session) (fresh : String) : Allocator :=
  (Allocator.new s.grammar.names Allocator.defaultLimit).reserve [fresh]

theorem mem_used_supply {fresh name : String} :
    name ∈ (s.supply fresh).used ↔ name ∈ s.grammar.names ∨ name = fresh := by
  rw [supply, Allocator.mem_used_reserve, Allocator.mem_used_new, List.mem_singleton]

theorem text_freshStart_not_mem {a : Allocator} :
    Symbol.var (s.freshStart a) ∉ s.grammar ∧ s.freshStart a ∉ a.used := by
  obtain ⟨hname, hused⟩ := s.freshStart_not_mem_names (some a)
  exact ⟨fun hm ↦ hname (Grammar.mem_names hm), hused a rfl⟩

theorem normalize_eq (s : Session) : s.normalize =
    (s.expect (s.grammar.check.mapError .grammar) >>= fun _ ↦ s.trim >>= fun r ↦
      if r.2.isEmpty then
        let nothing : Grammar := ⟨r.2.grammar.start, .empty⟩
        .ok ⟨r.2.grammar, nothing, true, none, [], r.1.put nothing⟩
      else
        let fresh := r.1.freshStart (Allocator.new s.grammar.names Allocator.defaultLimit)
        r.1.eliminateEpsilon (.var fresh) >>= fun q ↦ q.1.eliminateUnits >>= fun u ↦
          u.isolateTerminals (s.supply fresh) >>= fun p ↦ p.1.cascade p.2 [] >>= fun c ↦
            c.session.conclude r.2.grammar) := rfl

structure Prepares (s s₁ s₂ u : Session) (t : Trimming) (fresh : String) : Prop where
  trim : s.trim = .ok (s₁, t)
  isEmpty : t.isEmpty = false
  fresh_eq : s₁.freshStart (Allocator.new s.grammar.names Allocator.defaultLimit) = fresh
  epsilon : ∃ nullable, s₁.eliminateEpsilon (.var fresh) = .ok (s₂, nullable)
  units : s₂.eliminateUnits = .ok u
  prepared : Prepared s.grammar t.grammar (.var fresh) u.grammar
  helpers : u.helpers = s.helpers

theorem Prepares.normalize_eq {s₁ s₂ u : Session} {t : Trimming} {fresh : String}
    (h : Prepares s s₁ s₂ u t fresh) (hc : s.grammar.check = .ok ()) :
    s.normalize = (u.isolateTerminals (s.supply fresh) >>= fun r ↦
      r.1.cascade r.2 [] >>= fun c ↦ c.session.conclude t.grammar) := by
  obtain ⟨nullable, he⟩ := h.epsilon
  rw [Session.normalize_eq, expect_eq_ok.2 (mapError_eq_ok.2 hc), h.trim]
  simp only [ok_bind, h.isEmpty, Bool.false_eq_true, if_false]
  rw [h.fresh_eq, he]
  simp only [ok_bind]
  rw [h.units]
  rfl

/-- A grammar whose start derives some word passes through the first stages without a fault. -/
theorem exists_prepares (hg : s.grammar.IsLegal) (hs : s.grammar.IsProductive s.grammar.start) :
    ∃ s₁ s₂ u t fresh, Prepares s s₁ s₂ u t fresh := by
  obtain ⟨s₁, t, he₁, hg₁, hh₁, ht, hempty⟩ := exists_trim s
  have hne : t.isEmpty = false := by
    rw [Bool.eq_false_iff, ne_eq, hempty, not_not]
    exact hs.isGrounded
  have htl := ht.isLegal hg hs
  let a := Allocator.new s.grammar.names Allocator.defaultLimit
  have hfresh : s₁.freshStart a ∉ s.grammar.names := fun h ↦
    (text_freshStart_not_mem (s := s₁) (a := a)).2 (Allocator.mem_used_new.2 h)
  have hnot : Symbol.var (s₁.freshStart a) ∉ s.grammar := fun h ↦ hfresh (Grammar.mem_names h)
  have hlegal : (Symbol.var (s₁.freshStart a)).isVar = true ∧
      (Symbol.var (s₁.freshStart a)).IsLegal :=
    ⟨rfl, isVarName_freshStart _⟩
  obtain ⟨s₂, nullable, e, he₂, hh₂, hexp, hpruned⟩ :=
    exists_eliminateEpsilon (hg₁.symm ▸ htl) text_freshStart_not_mem.1 hlegal
  rw [hg₁] at hexp
  have hnt : Symbol.var (s₁.freshStart a) ∉ t.grammar := fun h ↦ hnot (ht.subset h)
  have hprod : s₂.grammar.IsProductive s₂.grammar.start := by
    obtain ⟨w, hw⟩ := hs
    rw [← ht.start_eq, ← ht.derives_iff htl.start_mem] at hw
    refine ⟨w, ?_⟩
    rw [hpruned.start_eq, hexp.start_eq]
    exact hpruned.derives_iff.2 ((hexp.derives_start_iff htl hnt).2 hw)
  obtain ⟨s₃, x, he₃, hh₃, hx, hxt⟩ :=
    exists_eliminateUnits (hpruned.isEpsilonFree (hexp.isEpsilonFree htl hnt hlegal)) hprod
  exact ⟨s₁, s₂, s₃, t, s₁.freshStart a, he₁, hne, rfl, ⟨nullable, he₂⟩, he₃,
    ⟨ht, hnot, hlegal, e, s₂.grammar, x, hexp, hpruned, hx, hxt⟩, hh₃.trans (hh₂.trans hh₁)⟩

theorem exists_prepared (hg : s.grammar.IsLegal) (hs : s.grammar.IsProductive s.grammar.start) :
    ∃ (t : Grammar) (fresh : String) (u : Session), Prepared s.grammar t (.var fresh) u.grammar ∧
      u.helpers = s.helpers ∧ s.normalize = (u.isolateTerminals (s.supply fresh) >>= fun r ↦
        r.1.cascade r.2 [] >>= fun c ↦ c.session.conclude t) := by
  obtain ⟨s₁, s₂, u, t, fresh, h⟩ := exists_prepares hg hs
  exact ⟨t.grammar, fresh, u, h.prepared, h.helpers, h.normalize_eq (Grammar.check_eq_ok_iff.2 hg)⟩

theorem helpers_decideFiniteness (s : Session) : s.decideFiniteness.1.helpers = s.helpers := by
  refine helpers_note_of_forall fun a ha ↦ ?_
  rw [List.mem_append, List.mem_map, List.mem_singleton] at ha
  rcases ha with ⟨step, -, rfl⟩ | rfl
  · cases step <;> rfl
  · rfl

theorem conclude_eq_ok (hg : s.grammar.violations = []) : s.conclude t = .ok ⟨t, s.grammar, false,
    some (!s.grammar.searchCycle.cycle.isEmpty), s.grammar.searchCycle.cycle,
    s.decideFiniteness.1⟩ := by
  unfold conclude
  rw [hg]
  rfl

end Session

/-- A grammar in Chomsky normal form with the words of `g`, and what is known of its variables. -/
structure IsNormalized (g : Grammar) (n : Normalization) : Prop where
  trimmed : g.IsTrimmed n.trimmed
  isBinary : n.grammar.IsBinary
  start_not_mem : n.grammar.start ∉ g
  helper : ∀ v ∈ n.session.helpers, v.isVar = true ∧ v ∉ g
  mem : ∀ v ∈ n.grammar, v ∈ n.trimmed ∨ v = n.grammar.start ∨ v ∈ n.session.helpers
  derives_iff : ∀ v ∈ n.grammar, v ∈ g → ∀ w, n.grammar.Derives v w ↔ g.Derives v w ∧ w ≠ []
  generates_iff : ∀ w, n.grammar.Generates w ↔ g.Generates w
  isInfinite_eq : n.isInfinite = some (!n.grammar.searchCycle.cycle.isEmpty)
  isEmpty_eq : n.isEmpty = false

namespace Session

variable {s : Session} {t : Grammar}

theorem exists_supplies {a : Allocator} {u : Session} {i : Isolation} {c : Cascade}
    (hh : u.helpers = []) (hi : Isolating u a (fun v b ↦ b ∈ u.grammar.bodies v) i)
    (hc : Cascading i.session i.allocator (fun v b ↦ b ∈ i.session.grammar.bodies v) c) :
    ∃ names, a.Supplies names c.allocator ∧ c.session.helpers = names.map .var ∧
      ∀ v ∈ c.session.grammar, v ∈ u.grammar ∨ v ∈ c.session.helpers := by
  obtain ⟨names, hsup, hhelp, hin⟩ := hi.supply
  obtain ⟨more, hsup', hhelp', hin'⟩ := hc.supply
  rw [hhelp, hh, List.nil_append] at hhelp'
  refine ⟨names ++ more, hsup.append hsup', by rw [hhelp', List.map_append], fun v hv ↦ ?_⟩
  rw [hhelp', List.mem_append]
  have hor : v ∈ i.session.grammar ∨ v ∈ more.map Symbol.var := by
    rcases (hc.mem v).1 hv with hv | ⟨e, he, hve⟩
    · exact .inl hv
    · exact hin' e he v hve
  rcases hor with hv | hv
  · rcases (hi.mem v).1 hv with hv | ⟨r, hr⟩
    · exact .inl hv
    · exact (hin _ hr).imp_right .inl
  · exact .inr (.inr hv)

theorem isNormalized_of_stages {fresh : String} {u : Session} {i : Isolation} {c : Cascade}
    (hg : s.grammar.IsLegal) (hs : s.grammar.IsProductive s.grammar.start)
    (hp : Prepared s.grammar t (.var fresh) u.grammar) (hh : u.helpers = [])
    (hi : Isolating u (s.supply fresh) (fun v b ↦ b ∈ u.grammar.bodies v) i)
    (hc : Cascading i.session i.allocator (fun v b ↦ b ∈ i.session.grammar.bodies v) c) :
    Ends Halt.IsExhaustion (c.session.conclude t) (IsNormalized s.grammar) := by
  have hu := hp.isUnitFree hg hs
  have hiso := hi.isIsolated hu
  have hbin := hc.isBinary hiso
  have hstart : c.session.grammar.start = .var fresh :=
    hc.start_eq.trans (hi.start_eq.trans hp.start_eq)
  have hderives : ∀ v ∈ u.grammar, ∀ w, c.session.grammar.Derives v w ↔ u.grammar.Derives v w := by
    intro v hv w
    rw [hc.derives_iff hiso.legal ((hi.mem v).2 (.inl hv)), hi.derives_iff hu.legal hv]
  obtain ⟨names, hsup, hhelp, hmem⟩ := exists_supplies hh hi hc
  have hnew : ∀ v ∈ c.session.helpers, v.isVar = true ∧ v ∉ s.grammar := by
    intro v hv
    obtain ⟨n, hn, rfl⟩ := List.mem_map.1 (hhelp ▸ hv)
    exact ⟨rfl, fun hvg ↦ hsup.fresh n hn (mem_used_supply.2 (.inl (Grammar.mem_names hvg)))⟩
  rw [conclude_eq_ok hbin.violations_eq_nil]
  constructor
  case trimmed => exact hp.trimmed
  case isBinary => exact hbin
  case start_not_mem => exact hstart ▸ hp.not_mem
  case helper =>
    intro v hv
    rw [helpers_decideFiniteness] at hv
    exact hnew v hv
  case mem =>
    intro v hv
    rw [helpers_decideFiniteness, hstart]
    rcases hmem v hv with hv | hv
    · exact (hp.mem hv).imp_right .inl
    · exact .inr (.inr hv)
  case derives_iff =>
    intro v hv hvg w
    have hvu : v ∈ u.grammar := (hmem v hv).resolve_right fun h ↦ (hnew v h).2 hvg
    have hvt : v ∈ t := (hp.mem hvu).resolve_right fun h ↦ hp.not_mem (h ▸ hvg)
    rw [hderives v hvu, hp.derives_iff hg hs hvu hvt]
  case generates_iff =>
    intro w
    have hfresh : Symbol.var fresh ∈ u.grammar := hp.start_eq ▸ hu.legal.start_mem
    rw [Grammar.Generates, hstart, hderives _ hfresh, hp.derives_start_iff hg hs, Grammar.Generates]
  case isInfinite_eq => rfl
  case isEmpty_eq => rfl

/-- Normalization of a grammar whose start derives some word runs out of names or gives a normal
form. -/
theorem ends_normalize (hg : s.grammar.IsLegal) (hs : s.grammar.IsProductive s.grammar.start)
    (hh : s.helpers = []) :
    Ends Halt.IsExhaustion s.normalize (IsNormalized s.grammar) := by
  obtain ⟨t, fresh, u, hp, hhu, he⟩ := exists_prepared hg hs
  have hu := hp.isUnitFree hg hs
  have hused : ∀ v ∈ u.grammar, v.text ∈ (s.supply fresh).used := by
    intro v hv
    rw [mem_used_supply]
    rcases hp.mem hv with hv | rfl
    · exact .inl (Grammar.mem_names (hp.trimmed.subset hv))
    · exact .inr rfl
  rw [he]
  apply (ends_isolateTerminals hu.legal hused).bind
  intro _ h
  obtain ⟨i, rfl, hi⟩ := h
  apply (ends_cascade (hi.isIsolated hu).legal hi.used (CascadeCache.isConsistent_nil _)).bind
  intro c hc
  exact isNormalized_of_stages hg hs hp (hhu.trans hh) hi hc

theorem normalize_of_isEmpty {s₁ : Session} {t : Trimming} (hc : s.grammar.check = .ok ())
    (ht : s.trim = .ok (s₁, t)) (he : t.isEmpty = true) :
    s.normalize = .ok ⟨t.grammar, ⟨t.grammar.start, .empty⟩, true, none, [],
      s₁.put ⟨t.grammar.start, .empty⟩⟩ := by
  rw [normalize_eq, expect_eq_ok.2 (mapError_eq_ok.2 hc), ht]
  simp only [ok_bind, he, if_true]

theorem normalize_of_not_isProductive (hg : s.grammar.IsLegal)
    (hs : ¬s.grammar.IsProductive s.grammar.start) :
    ∃ n, s.normalize = .ok n ∧ n.isEmpty = true ∧ n.isInfinite = none ∧ ∀ v, v ∉ n.grammar := by
  obtain ⟨s₁, t, he₁, -, -, -, hempty⟩ := exists_trim s
  have he : t.isEmpty = true := hempty.2 fun h ↦ hs (hg.isProper.isGrounded_iff.1 h)
  exact ⟨_, normalize_of_isEmpty (Grammar.check_eq_ok_iff.2 hg) he₁ he, rfl, rfl,
    fun v ↦ List.not_mem_nil⟩

end Session

namespace Grammar

variable {g : Grammar} {n : Normalization}

theorem normalize_eq_ok : g.normalize = .ok n ↔ (Session.ofGrammar g).normalize = .ok n :=
  mapError_eq_ok

theorem normalize_eq_ok_or_exhausted (hg : g.IsLegal) :
    (∃ n, g.normalize = .ok n) ∨ ∃ limit, g.normalize = .error (.namesExhausted limit) := by
  by_cases hs : g.IsProductive g.start
  · have h := Session.ends_normalize (s := .ofGrammar g) hg hs rfl
    cases hn : (Session.ofGrammar g).normalize with
    | ok n => exact .inl ⟨n, normalize_eq_ok.2 hn⟩
    | error halt =>
      rw [hn] at h
      obtain ⟨limit, hlimit⟩ := h
      refine .inr ⟨limit, ?_⟩
      rw [normalize, hn, ← hlimit]
      rfl
  · obtain ⟨n, hn, -⟩ := Session.normalize_of_not_isProductive (s := .ofGrammar g) hg hs
    exact .inl ⟨n, normalize_eq_ok.2 hn⟩

theorem isNormalized_of_normalize (hc : g.check = .ok ()) (hw : ∃ w, g.Generates w)
    (hn : g.normalize = .ok n) :
    IsNormalized g n := by
  have h := Session.ends_normalize (s := .ofGrammar g) (check_eq_ok_iff.1 hc) hw rfl
  exact h.of_ok (normalize_eq_ok.1 hn)

end Grammar

end ChomskyNormalForm
