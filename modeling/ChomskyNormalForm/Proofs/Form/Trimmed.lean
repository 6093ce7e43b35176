import ChomskyNormalForm.Form.Trimmed
import ChomskyNormalForm.Proofs.Analysis.Pruned
import ChomskyNormalForm.Proofs.Analysis.Reachable
import ChomskyNormalForm.Proofs.Trace.Helpers

namespace ChomskyNormalForm

namespace Grammar

variable {g t : Grammar} {u v : Symbol} {b : Body} {w : Word}

/-- `t` holds the grounded variables that its start reaches, with their bodies over grounded
variables. -/
structure IsTrimmed (g t : Grammar) : Prop where
  start_eq : t.start = g.start
  mem : ∀ v, v ∈ t ↔ g.IsGrounded v ∧ t.Reaches t.start v
  bodies : ∀ v b, b ∈ t.bodies v ↔ v ∈ t ∧ b ∈ g.bodies v ∧ ∀ u ∈ Body.vars b, g.IsGrounded u

theorem IsGrounded.mem (h : g.IsGrounded v) : v ∈ g := by
  cases h with
  | intro hb _ => exact mem_of_mem_bodies hb

theorem IsTrimmed.subset (h : IsTrimmed g t) (hv : v ∈ t) : v ∈ g := ((h.mem v).1 hv).1.mem

theorem IsTrimmed.closed (h : IsTrimmed g t) (hm : t.Mentions v u) : u ∈ t := by
  obtain ⟨b, hb, hu⟩ := id hm
  obtain ⟨hv, -, hg⟩ := (h.bodies v b).1 hb
  exact (h.mem u).2 ⟨hg u hu, ((h.mem v).1 hv).2.tail hm⟩

/-- A closed part of a grammar, with all bodies over productive variables, keeps the words of its
variables. -/
theorem derives_iff_of_part (hsub : ∀ v, ∀ b ∈ t.bodies v, b ∈ g.bodies v)
    (hkeep : ∀ v ∈ t, ∀ b ∈ g.bodies v, (∀ u ∈ Body.vars b, g.IsProductive u) → b ∈ t.bodies v)
    (hclosed : ∀ v u, t.Mentions v u → u ∈ t) (hv : v ∈ t) : t.Derives v w ↔ g.Derives v w := by
  constructor
  · exact Derives.mono hsub
  · intro hw
    refine derives_induct (I := fun v w ↦ v ∈ t → t.Derives v w) (fun v b hb w hw hv ↦ ?_) hw hv
    have hb' : b ∈ t.bodies v := by
      refine hkeep v hv b hb fun u hu ↦ ?_
      rw [Body.mem_vars] at hu
      obtain ⟨x, hx⟩ := hw.exists_of_mem hu.1
      exact ⟨x, ((Symbol.denotes_var hu.2).1 hx).1⟩
    exact derives_of_mem hb' (hw.mono fun u hu _ hd ↦ hd.2 (hclosed v u ⟨b, hb', hu⟩))

theorem IsTrimmed.derives_iff (h : IsTrimmed g t) (hv : v ∈ t) : t.Derives v w ↔ g.Derives v w := by
  refine derives_iff_of_part (fun v b hb ↦ ((h.bodies v b).1 hb).2.1) (fun v hv b hb hu ↦ ?_)
    (fun _ _ ↦ h.closed) hv
  exact (h.bodies v b).2 ⟨hv, hb, fun u hu' ↦ (hu u hu').isGrounded⟩

theorem IsTrimmed.isUseful (h : IsTrimmed g t) (hg : g.IsProper) (hv : v ∈ t) : t.IsUseful v := by
  obtain ⟨hgr, hr⟩ := (h.mem v).1 hv
  obtain ⟨w, hw⟩ := hg.isGrounded_iff.1 hgr
  exact ⟨hr, w, (h.derives_iff hv).2 hw⟩

theorem IsTrimmed.isLegal (h : IsTrimmed g t) (hg : g.IsLegal) (hs : g.IsProductive g.start) :
    t.IsLegal where
  start_mem := (h.mem _).2 ⟨h.start_eq ▸ hs.isGrounded, .refl⟩
  head v hv := hg.head v (h.subset hv)
  body v b hb := hg.body v b ((h.bodies v b).1 hb).2.1
  closed _ _ hm := h.closed hm

theorem reaches_restrict_iff {p : Symbol → Bool}
    (hp : ∀ v u, g.Reaches g.start v → g.Mentions v u → p v = true) :
    (g.restrict p).Reaches g.start u ↔ g.Reaches g.start u := by
  constructor
  · refine Reaches.mono fun v u ⟨b, hb, hu⟩ ↦ Mentions.reaches ⟨b, (mem_bodies_restrict.1 hb).1, hu⟩
  · intro hr
    induction hr with
    | refl => exact .refl
    | tail hr hm ih =>
      obtain ⟨b, hb, hu⟩ := id hm
      exact ih.tail ⟨b, mem_bodies_restrict.2 ⟨hb, hp _ _ hr hm⟩, hu⟩

theorem exists_trimming (g : Grammar) : ∃ t, g.trimming = .ok t ∧ IsTrimmed g t.grammar ∧
    (t.isEmpty = true ↔ ¬g.IsGrounded g.start) ∧
    t.filtered = g.filterBodies (fun _ b ↦ b.isOver (.ofList t.productive)) ∧
    t.grammar = t.filtered.restrict (fun v ↦ v ∈ SymbolSet.ofList t.productive && v ∈ t.reachable) ∧
    ∀ v, v ∈ t.retained ↔ v ∈ t.productive ∧ v ∈ t.reachable := by
  obtain ⟨layers, he, hl⟩ := exists_productiveLayers g
  refine ⟨_, by rw [trimming, he]; rfl, ?_, ?_, rfl, rfl, fun v ↦ ?_⟩
  · let f := g.filterBodies fun _ b ↦ b.isOver (.ofList (layered layers))
    let p (v : Symbol) : Bool := v ∈ SymbolSet.ofList (layered layers) && v ∈ f.reachable
    have hp : ∀ v, p v = true ↔ g.IsGrounded v ∧ f.Reaches f.start v := by
      intro v
      simp only [p, Bool.and_eq_true, decide_eq_true_eq, SymbolSet.mem_ofList, hl, mem_reachable]
    have hf : ∀ v b, b ∈ f.bodies v ↔ b ∈ g.bodies v ∧ ∀ u ∈ Body.vars b, g.IsGrounded u := by
      intro v b
      simp only [f, mem_bodies_filterBodies, Body.isOver_iff, SymbolSet.mem_ofList, hl]
    have hr : ∀ v, (f.restrict p).Reaches f.start v ↔ f.Reaches f.start v := by
      intro v
      refine reaches_restrict_iff fun u x hu hx ↦ (hp u).2 ⟨?_, hu⟩
      obtain ⟨b, hb, -⟩ := hx
      obtain ⟨hb, hg⟩ := (hf u b).1 hb
      exact .intro hb hg
    have hm : ∀ v, v ∈ f.restrict p ↔ g.IsGrounded v ∧ f.Reaches f.start v := by
      intro v
      rw [mem_restrict, hp]
      constructor
      · exact And.right
      · exact fun h ↦ ⟨mem_filterBodies.2 h.1.mem, h⟩
    refine ⟨rfl, fun v ↦ (hm v).trans (and_congr_right fun _ ↦ (hr v).symm), fun v b ↦ ?_⟩
    rw [mem_bodies_restrict, hm, hf, hp]
    exact and_comm
  · simp only [Trimming.isEmpty, decide_eq_true_eq]
    simp only [Trimming.retained, Trimming.productive, start_restrict, start_filterBodies,
      List.mem_filter, hl, decide_eq_true_eq, mem_reachable, not_and]
    constructor
    · exact fun h hg ↦ h hg .refl
    · exact fun h hg ↦ absurd hg h
  · simp [Trimming.retained]

end Grammar

namespace Session

open Grammar

theorem helpers_productiveActions {layers : List ProductiveLayer} {a : Action × List Symbol}
    (ha : a ∈ productiveActions layers) : a.1.helpers a.2 = [] := by
  simp only [productiveActions, List.mem_append, List.mem_map, List.mem_flatMap,
    List.mem_singleton] at ha
  rcases ha with (⟨e, -, rfl⟩ | ⟨d, -, e, -, rfl⟩) | rfl
  · rfl
  · rfl
  · rfl

variable {s : Session} {t : Trimming}

def dropUngrounded (s : Session) (t : Trimming) : Session :=
  let removed := s.grammar.productions.filter fun p ↦ !p.body.isOver (SymbolSet.ofList t.productive)
  if removed.isEmpty then s
  else s.commit t.filtered .filter (Symbol.sort (distinct (removed.map (·.head)))) [] removed

def dropUnretained (s : Session) (t : Trimming) : Session :=
  let dropped := t.filtered.sortedHeads.filter (· ∉ t.retained)
  if dropped.isEmpty then s
  else s.commit t.grammar .restrict dropped [] (dropped.flatMap t.filtered.productionsOf)

theorem grammar_dropUngrounded
    (hf : t.filtered = s.grammar.filterBodies fun _ b ↦ b.isOver (SymbolSet.ofList t.productive)) :
    (s.dropUngrounded t).grammar = t.filtered := by
  refine grammar_commit_unless fun hr ↦ ?_
  rw [hf, filterBodies_eq_self]
  intro v b hb
  have h := List.filter_eq_nil_iff.1 (List.isEmpty_iff.1 hr) ⟨v, b⟩ (mem_productions.2 hb)
  simpa using h

theorem grammar_dropUnretained (hs : s.grammar = t.filtered)
    (hg : t.grammar = t.filtered.restrict (fun v ↦ v ∈ SymbolSet.ofList t.productive &&
      v ∈ t.reachable))
    (hret : ∀ v, v ∈ t.retained ↔ v ∈ t.productive ∧ v ∈ t.reachable) :
    (s.dropUnretained t).grammar = t.grammar := by
  refine grammar_commit_unless fun hd ↦ ?_
  have hfiltered :=
    fun v hv ↦ List.filter_eq_nil_iff.1 (List.isEmpty_iff.1 hd) v (mem_sortedHeads.2 hv)
  simp only [decide_eq_true_eq, not_not, hret] at hfiltered
  rw [hs, hg, restrict_eq_self fun v hv ↦ by simp [hfiltered v hv]]

def trimmed (s : Session) (t : Trimming) : Session :=
  let u := (s.note (productiveActions t.layers)).dropUngrounded t
  let u := (u.emit .reachable (Symbol.sort t.reachable) [] []).dropUnretained t
  u.emit (.verdict s.grammar.start t.isEmpty) (Symbol.sort t.retained) [] []

theorem trim_eq (s : Session) :
    s.trim = (s.expect s.grammar.trimming >>= fun t ↦ pure (s.trimmed t, t)) := by
  simp only [trim, trimmed, dropUngrounded, dropUnretained, grammar_note]

theorem exists_trim (s : Session) : ∃ s' t, s.trim = .ok (s', t) ∧ s'.grammar = t.grammar ∧
    s'.helpers = s.helpers ∧ IsTrimmed s.grammar t.grammar ∧
    (t.isEmpty = true ↔ ¬s.grammar.IsGrounded s.grammar.start) := by
  obtain ⟨t, he, ht, hempty, hf, hg, hret⟩ := exists_trimming s.grammar
  refine ⟨s.trimmed t, t, by rw [trim_eq, expect_eq_ok.2 he]; rfl, ?_, ?_, ht, hempty⟩
  · rw [trimmed, grammar_emit, grammar_dropUnretained _ hg hret]
    rw [grammar_emit, grammar_dropUngrounded]
    rwa [grammar_note]
  · rw [trimmed, helpers_emit, dropUnretained, helpers_commit_unless rfl, helpers_emit,
      dropUngrounded, helpers_commit_unless rfl, helpers_note_of_forall fun a ↦
      helpers_productiveActions]
    simp [Action.helpers]

end Session

end ChomskyNormalForm
