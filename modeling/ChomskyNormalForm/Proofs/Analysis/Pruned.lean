import ChomskyNormalForm.Analysis.Rounds
import ChomskyNormalForm.Proofs.Analysis.Nullable

namespace ChomskyNormalForm

theorem Rules.restrict_eq_self {r : Rules Symbol} {p : Symbol → Bool} (h : ∀ v ∈ r, p v = true) :
    r.restrict p = r :=
  Rules.ext_entries (List.filter_eq_self.2 fun _ he ↦ h _ (List.mem_map_of_mem he))

theorem Rules.restrict_congr {r : Rules Symbol} {p q : Symbol → Bool} (h : ∀ v ∈ r, p v = q v) :
    r.restrict p = r.restrict q :=
  Rules.ext_entries (List.filter_congr fun _ he ↦ h _ (List.mem_map_of_mem he))

theorem Rules.filterBodies_eq_self {r : Rules Symbol} {p : Symbol → Body → Bool}
    (h : ∀ v, ∀ b ∈ r.bodies v, p v b = true) : r.filterBodies p = r := by
  refine Rules.ext_entries ((List.map_congr_left fun e he ↦ ?_).trans (List.map_id _))
  have hf : e.2.filter (p e.1) = e.2 := by
    refine List.filter_eq_self.2 fun b hb ↦ h e.1 b ?_
    rwa [Rules.bodies_of_mem_entries he]
  simp only [hf, id]

namespace Grammar

variable {g p : Grammar} {u v : Symbol} {b : Body} {w : Word}

theorem restrict_eq_self {p : Symbol → Bool} (h : ∀ v ∈ g, p v = true) : g.restrict p = g := by
  rw [restrict, Rules.restrict_eq_self h]

theorem restrict_congr {p q : Symbol → Bool} (h : ∀ v ∈ g, p v = q v) :
    g.restrict p = g.restrict q := by
  rw [restrict, restrict, Rules.restrict_congr h]

theorem filterBodies_eq_self {p : Symbol → Body → Bool} (h : ∀ v, ∀ b ∈ g.bodies v, p v b = true) :
    g.filterBodies p = g := by
  rw [filterBodies, Rules.filterBodies_eq_self h]

theorem mem_emptied : v ∈ g.emptied ↔ v ∈ g ∧ v ≠ g.start ∧ g.bodies v = [] := by
  simp only [emptied, Symbol.sort, mem_sortBy, List.mem_map, List.mem_filter, Bool.and_eq_true,
    decide_eq_true_eq, List.isEmpty_iff]
  constructor
  · intro h
    obtain ⟨e, ⟨he, hne, hb⟩, rfl⟩ := h
    exact ⟨List.mem_map_of_mem he, hne, (Rules.bodies_of_mem_entries he).trans hb⟩
  · intro h
    obtain ⟨hv, hne, hb⟩ := h
    exact ⟨(v, g.bodies v), ⟨Rules.mem_entries_of_mem hv, hne, hb⟩, rfl⟩

theorem mem_orphaned {held : SymbolSet} {q : Production} :
    q ∈ g.orphaned held ↔ q.body ∈ g.bodies q.head ∧ q.body.isOver held = false := by
  simp only [orphaned, mem_sortBy, List.mem_flatMap, List.mem_map, List.mem_filter,
    Bool.not_eq_true']
  constructor
  · intro h
    obtain ⟨e, he, b, ⟨hb, ho⟩, rfl⟩ := h
    have he' : g.bodies e.1 = e.2 := Rules.bodies_of_mem_entries he
    exact ⟨he' ▸ hb, ho⟩
  · intro h
    obtain ⟨hb, ho⟩ := h
    exact ⟨(q.head, g.bodies q.head), Rules.mem_entries_of_mem (mem_of_mem_bodies hb), q.body,
      ⟨hb, ho⟩, rfl⟩

/-- `p` is the largest part of `g` in which variables other than the start have bodies, and bodies
only variables with an entry. -/
structure IsPruned (g p : Grammar) : Prop where
  start_eq : p.start = g.start
  mem : ∀ v ∈ p, v ∈ g
  bodies : ∀ v b, b ∈ p.bodies v ↔ v ∈ p ∧ b ∈ g.bodies v ∧ ∀ u ∈ Body.vars b, u ∈ p
  supported : ∀ v ∈ p, v ≠ p.start → p.bodies v ≠ []
  largest : ∀ A : Symbol → Prop,
    (∀ v, A v → v ∈ g ∧ (v = g.start ∨ ∃ b ∈ g.bodies v, ∀ u ∈ Body.vars b, A u)) → ∀ v, A v → v ∈ p

theorem IsPruned.closed (h : IsPruned g p) (hm : p.Mentions v u) : u ∈ p := by
  obtain ⟨b, hb, hu⟩ := hm
  exact ((h.bodies v b).1 hb).2.2 u hu

theorem IsPruned.start_mem (h : IsPruned g p) (hs : g.start ∈ g) : p.start ∈ p := by
  refine h.largest (· = g.start) (fun v hv ↦ ?_) _ h.start_eq
  exact ⟨hv ▸ hs, .inl hv⟩

theorem IsPruned.isLegal (h : IsPruned g p) (hg : g.IsLegal) : p.IsLegal where
  start_mem := h.start_mem hg.start_mem
  head v hv := hg.head v (h.mem v hv)
  body v b hb := hg.body v b ((h.bodies v b).1 hb).2.1
  closed _ _ hm := h.closed hm

theorem IsPruned.mem_of_isProductive (h : IsPruned g p) (hv : g.IsProductive v) : v ∈ p := by
  refine h.largest g.IsProductive (fun v hv ↦ ?_) v hv
  obtain ⟨w, hw⟩ := hv
  obtain ⟨b, hb, hbw⟩ := derives_iff.1 hw
  refine ⟨mem_of_mem_bodies hb, .inr ⟨b, hb, fun u hu ↦ ?_⟩⟩
  rw [Body.mem_vars] at hu
  obtain ⟨x, hx⟩ := hbw.exists_of_mem hu.1
  exact ⟨x, (Symbol.denotes_var hu.2).1 hx⟩

theorem IsPruned.derives_iff (h : IsPruned g p) : p.Derives v w ↔ g.Derives v w := by
  constructor
  · exact Derives.mono fun v b hb ↦ ((h.bodies v b).1 hb).2.1
  · refine derives_induct (fun v b hb w hw ↦ ?_)
    -- What derives a word is never dead, so neither is the body nor any variable in it.
    have hgw : Body.Denotes g.Derives b w := hw.mono fun _ _ _ ↦ And.left
    refine derives_of_mem ((h.bodies v b).2 ⟨?_, hb, fun u hu ↦ ?_⟩) (hw.mono fun _ _ _ ↦ And.right)
    · exact h.mem_of_isProductive ⟨w, derives_of_mem hb hgw⟩
    · rw [Body.mem_vars] at hu
      obtain ⟨x, hx⟩ := hgw.exists_of_mem hu.1
      exact h.mem_of_isProductive ⟨x, (Symbol.denotes_var hu.2).1 hx⟩

structure Pruned (g : Grammar) (rounds : Nat) (p : Pruning) : Prop where
  start_eq : p.grammar.start = g.start
  mem : ∀ v ∈ p.grammar, v ∈ g
  body : ∀ v, ∀ b ∈ p.grammar.bodies v, b ∈ g.bodies v
  kept : ∀ v ∈ p.grammar, ∀ b ∈ g.bodies v, (∀ u ∈ Body.vars b, u ∈ p.grammar) →
    b ∈ p.grammar.bodies v
  closed : 0 < rounds → ∀ v u, p.grammar.Mentions v u → u ∈ p.grammar
  largest : ∀ A : Symbol → Prop,
    (∀ v, A v → v ∈ g ∧ (v = g.start ∨ ∃ b ∈ g.bodies v, ∀ u ∈ Body.vars b, A u)) →
      ∀ v, A v → v ∈ p.grammar
  count : p.grammar.heads.length + (rounds - 1) ≤ g.heads.length
  unchanged : p.dropped = [] → p.removed = [] → p.grammar = g

variable {rounds : Nat} {q : Pruning}

theorem mem_round : v ∈ q.round.1.grammar ↔ v ∈ q.grammar ∧ v ∉ q.grammar.emptied := by
  simp [Pruning.round]

theorem mem_bodies_round : b ∈ q.round.1.grammar.bodies v ↔
    b ∈ q.grammar.bodies v ∧ ∀ u ∈ Body.vars b, u ∈ q.round.1.grammar := by
  simp only [mem_round]
  simp only [Pruning.round, mem_bodies_filterBodies, mem_bodies_restrict,
    Body.isOver_iff, mem_headSet, mem_restrict, decide_eq_true_eq]
  constructor
  · intro hx
    obtain ⟨⟨hb, -⟩, hu⟩ := hx
    exact ⟨hb, hu⟩
  · intro hx
    obtain ⟨hb, hu⟩ := hx
    refine ⟨⟨hb, fun h ↦ ?_⟩, hu⟩
    exact List.ne_nil_of_mem hb (mem_emptied.1 h).2.2

theorem round_snd : q.round.2 = !(q.grammar.emptied.isEmpty &&
    ((q.grammar.restrict (· ∉ q.grammar.emptied)).orphaned
      (q.grammar.restrict (· ∉ q.grammar.emptied)).headSet).isEmpty) := rfl

theorem heads_round : q.round.1.grammar.heads = q.grammar.heads.filter (· ∉ q.grammar.emptied) := by
  simp only [Pruning.round, heads, filterBodies, Rules.keys_filterBodies]
  simp only [restrict, Rules.restrict, Rules.keys, List.filter_map]
  rfl

theorem round_eq_false (h : q.round.2 = false) : q.round.1 = q ∧
    (∀ v ∈ q.grammar, v ≠ q.grammar.start → q.grammar.bodies v ≠ []) ∧
    ∀ v u, q.grammar.Mentions v u → u ∈ q.grammar := by
  simp only [Pruning.round, Bool.not_eq_false', Bool.and_eq_true, List.isEmpty_iff] at h
  obtain ⟨he, ho⟩ := h
  have hr : q.grammar.restrict (· ∉ q.grammar.emptied) = q.grammar :=
    restrict_eq_self fun v _ ↦ by simp [he]
  rw [hr] at ho
  have hover : ∀ v, ∀ b ∈ q.grammar.bodies v, b.isOver q.grammar.headSet = true := by
    intro v b hb
    by_contra hb'
    have hm : (⟨v, b⟩ : Production) ∈ q.grammar.orphaned q.grammar.headSet :=
      mem_orphaned.2 ⟨hb, Bool.eq_false_iff.2 hb'⟩
    rw [ho] at hm
    exact List.not_mem_nil hm
  refine ⟨?_, fun v hv hne hb ↦ ?_, ?_⟩
  · have hf : q.grammar.filterBodies (fun _ b ↦ b.isOver q.grammar.headSet) = q.grammar :=
      filterBodies_eq_self hover
    simp only [Pruning.round, hr, ho, hf]
    rw [he, List.append_nil, List.append_nil]
  · have hm := mem_emptied.2 ⟨hv, hne, hb⟩
    rw [he] at hm
    exact List.not_mem_nil hm
  · intro v u hx
    obtain ⟨b, hb, hu⟩ := hx
    exact mem_headSet.1 (Body.isOver_iff.1 (hover v b hb) u hu)

theorem emptied_ne_nil (hc : ∀ v u, q.grammar.Mentions v u → u ∈ q.grammar)
    (hr : q.round.2 = true) :
    q.grammar.emptied ≠ [] := by
  intro he
  have hrest : q.grammar.restrict (· ∉ q.grammar.emptied) = q.grammar :=
    restrict_eq_self fun v _ ↦ by simp [he]
  have ho : q.grammar.orphaned q.grammar.headSet = [] := by
    refine List.eq_nil_iff_forall_not_mem.2 fun r hm ↦ ?_
    obtain ⟨hb, hover⟩ := mem_orphaned.1 hm
    rw [Bool.eq_false_iff, ne_eq, Body.isOver_iff] at hover
    exact hover fun u hu ↦ mem_headSet.2 (hc r.head u ⟨r.body, hb, hu⟩)
  rw [round_snd, hrest, ho, he] at hr
  exact absurd hr (by decide)

theorem round_eq_self (hs : ∀ v ∈ q.grammar, v ≠ q.grammar.start → q.grammar.bodies v ≠ [])
    (hc : ∀ v u, q.grammar.Mentions v u → u ∈ q.grammar) : q.round = (q, false) := by
  have hr : q.round.2 = false := by
    refine Bool.eq_false_iff.2 fun hr ↦
      emptied_ne_nil hc hr (List.eq_nil_iff_forall_not_mem.2 fun v hv ↦ ?_)
    obtain ⟨hv, hne, hb⟩ := mem_emptied.1 hv
    exact hs v hv hne hb
  exact Prod.ext (round_eq_false hr).1 hr

theorem IsPruned.round_eq_self (h : IsPruned g q.grammar) : q.round = (q, false) :=
  Grammar.round_eq_self h.supported fun _ _ ↦ h.closed

theorem Pruned.round (h : Pruned g rounds q) (hr : q.round.2 = true) :
    Pruned g (rounds + 1) q.round.1 := by
  constructor
  case start_eq => exact h.start_eq
  case mem => exact fun v hv ↦ h.mem v (mem_round.1 hv).1
  case body => exact fun v b hb ↦ h.body v b (mem_bodies_round.1 hb).1
  case kept =>
    intro v hv b hb hu
    refine mem_bodies_round.2 ⟨h.kept v (mem_round.1 hv).1 b hb fun u hu' ↦ ?_, hu⟩
    exact (mem_round.1 (hu u hu')).1
  case closed =>
    intro _ v u hx
    obtain ⟨b, hb, hu⟩ := hx
    exact (mem_bodies_round.1 hb).2 u hu
  case largest =>
    intro A hA v hv
    refine mem_round.2 ⟨h.largest A hA v hv, fun he ↦ ?_⟩
    obtain ⟨hm, hne, hbs⟩ := mem_emptied.1 he
    rcases (hA v hv).2 with rfl | ⟨b, hb, hu⟩
    · exact hne h.start_eq.symm
    · have hb' := h.kept v hm b hb fun u hu' ↦ h.largest A hA u (hu u hu')
      rw [hbs] at hb'
      exact List.not_mem_nil hb'
  case count =>
    have hc := h.count
    rw [heads_round]
    by_cases hz : rounds = 0
    · have hle := List.length_filter_le (fun v ↦ decide (v ∉ q.grammar.emptied)) q.grammar.heads
      omega
    · obtain ⟨v, hv⟩ := List.exists_mem_of_ne_nil _ (emptied_ne_nil (h.closed (by omega)) hr)
      have hlt : (q.grammar.heads.filter (· ∉ q.grammar.emptied)).length < q.grammar.heads.length :=
        List.length_filter_lt_length_iff_exists.2 ⟨v, (mem_emptied.1 hv).1, by simpa using hv⟩
      omega
  case unchanged =>
    intro hd hm
    simp only [Pruning.round, List.append_eq_nil_iff] at hd hm
    rw [round_snd, hm.2, hd.2] at hr
    exact absurd hr (by decide)

theorem exists_pruned (g : Grammar) :
    ∃ p, g.pruned = .ok p ∧ IsPruned g p.grammar ∧
      (p.dropped = [] → p.removed = [] → p.grammar = g) := by
  have start : Pruned g 0 ⟨g, [], []⟩ := by
    constructor
    case start_eq => rfl
    case mem => exact fun v hv ↦ hv
    case body => exact fun v b hb ↦ hb
    case kept => exact fun v _ b hb _ ↦ hb
    case closed => exact fun h ↦ absurd h (by omega)
    case largest => exact fun A hA v hv ↦ (hA v hv).1
    case count => simp
    case unchanged => exact fun _ _ ↦ rfl
  have bound : ∀ k p, Pruned g k p → k < g.heads.length + 2 := by
    intro k p hp
    have hc := hp.count
    omega
  obtain ⟨k, p, hp, hr, he⟩ :=
    @settled_eq_ok _ (fun _ p ↦ Pruning.round p) (Pruned g) "dead variable set" _
      (fun k p hp hr ↦ hp.round hr) bound _ start
  obtain ⟨heq, hs, hc⟩ := round_eq_false hr
  refine ⟨p, by rw [pruned, he, heq], ⟨hp.start_eq, hp.mem, fun v b ↦ ⟨fun hb ↦ ?_, ?_⟩,
    hs, hp.largest⟩, hp.unchanged⟩
  · exact ⟨mem_of_mem_bodies hb, hp.body v b hb, fun u hu ↦ hc v u ⟨b, hb, hu⟩⟩
  · exact fun ⟨hv, hb, hu⟩ ↦ hp.kept v hv b hb hu

theorem pruned_eq_self (hs : ∀ v ∈ g, v ≠ g.start → g.bodies v ≠ [])
    (hc : ∀ v u, g.Mentions v u → u ∈ g) :
    g.pruned = .ok ⟨g, [], []⟩ := by
  have hr : Pruning.round ⟨g, [], []⟩ = (⟨g, [], []⟩, false) := round_eq_self hs hc
  rw [pruned, settled, settle, hr]
  rfl

end Grammar

end ChomskyNormalForm
