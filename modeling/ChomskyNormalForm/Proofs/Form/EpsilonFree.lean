import ChomskyNormalForm.Proofs.Allocator
import ChomskyNormalForm.Proofs.Analysis.Nullable
import ChomskyNormalForm.Proofs.Analysis.Pruned
import ChomskyNormalForm.Proofs.Form.Variants
import ChomskyNormalForm.Proofs.Outcome
import ChomskyNormalForm.Proofs.Trace.Amended

namespace ChomskyNormalForm

theorem Body.not_denotes_empty_word {I : Interpretation} {b : Body} (hb : b ≠ [])
    (hl : ∀ s ∈ b, s.IsLegal) (hI : ∀ u ∈ vars b, ¬I u []) : ¬Body.Denotes I b [] := by
  intro h
  obtain ⟨s, hs⟩ := List.exists_mem_of_ne_nil b hb
  have hd := denotes_empty_word.1 h s hs
  cases s with
  | var name => exact hI _ (mem_vars.2 ⟨hs, rfl⟩) hd
  | terminal a => exact (hl _ hs).toList_ne_nil (Eq.symm hd)
  | epsilon => exact hl _ hs
  | foreign t => exact hl _ hs

namespace Grammar

variable {g e : Grammar} {fresh v u : Symbol} {b c : Body} {w : Word}

def withFront (g : Grammar) (fresh : Symbol) : Grammar :=
  (g.extend fresh [[g.start]]).withStart fresh

@[simp] theorem start_withFront : (g.withFront fresh).start = fresh := rfl

@[simp] theorem mem_withFront : v ∈ g.withFront fresh ↔ v ∈ g ∨ v = fresh := by
  simp [withFront]

theorem mem_bodies_withFront : b ∈ (g.withFront fresh).bodies v ↔ b ∈ g.bodies v ∨ v = fresh ∧
    b = [g.start] := by
  simp [withFront, mem_bodies_extend]

theorem IsLegal.mem_of_mem_vars (hg : g.IsLegal) (hb : b ∈ (g.withFront fresh).bodies v)
    (hu : u ∈ Body.vars b) :
    u ∈ g := by
  rcases mem_bodies_withFront.1 hb with hb | ⟨-, rfl⟩
  · exact hg.closed v u ⟨b, hb, hu⟩
  · rw [List.mem_singleton.1 (Body.mem_vars.1 hu).1]
    exact hg.start_mem

theorem IsLegal.withFront (hg : g.IsLegal) (hv : fresh.isVar = true ∧ fresh.IsLegal) :
    (g.withFront fresh).IsLegal where
  start_mem := mem_withFront.2 (.inr rfl)
  head v hm := by
    rcases mem_withFront.1 hm with hm | rfl
    · exact hg.head v hm
    · exact hv
  body v b hb := by
    rcases mem_bodies_withFront.1 hb with hb | ⟨-, rfl⟩
    · exact hg.body v b hb
    · refine .inr ⟨by simp, fun s hs ↦ ?_⟩
      rw [List.mem_singleton.1 hs]
      exact (hg.head _ hg.start_mem).2
  closed v u hm := by
    obtain ⟨b, hb, hu⟩ := hm
    exact mem_withFront.2 (.inl (hg.mem_of_mem_vars hb hu))

theorem IsLegal.derives_withFront (hg : g.IsLegal) (hf : fresh ∉ g) (hv : v ∈ g) :
    (g.withFront fresh).Derives v w ↔ g.Derives v w := by
  constructor
  · intro h
    refine derives_least (I := fun v w ↦ v ∈ g → g.Derives v w) (fun v b hb w hw hv ↦ ?_) h hv
    rcases mem_bodies_withFront.1 hb with hb' | ⟨rfl, -⟩
    · exact derives_of_mem hb' (hw.mono fun u hu w hd ↦ hd (hg.mem_of_mem_vars hb hu))
    · exact absurd hv hf
  · exact Derives.mono fun v b hb ↦ mem_bodies_withFront.2 (.inl hb)

theorem IsLegal.derives_withFront_start (hg : g.IsLegal) (hf : fresh ∉ g) :
    (g.withFront fresh).Derives fresh w ↔ g.Derives g.start w := by
  have hs : ∀ I : Interpretation, Body.Denotes I [g.start] w ↔ I g.start w := by
    intro I
    rw [Body.denotes_singleton, Symbol.denotes_var hg.isVar_start]
  rw [derives_iff]
  constructor
  · intro ⟨b, hb, hw⟩
    rcases mem_bodies_withFront.1 hb with hb | ⟨-, rfl⟩
    · exact absurd (mem_of_mem_bodies hb) hf
    · exact (hg.derives_withFront hf hg.start_mem).1 ((hs _).1 hw)
  · intro hw
    refine ⟨[g.start], mem_bodies_withFront.2 (.inr ⟨rfl, rfl⟩), ?_⟩
    exact (hs _).2 ((hg.derives_withFront hf hg.start_mem).2 hw)

/-- `e` is `g` behind a new start, each body with its nullable variables deleted in all ways. Only
the new start has the empty word, if the old one derives it. -/
structure IsExpanded (g : Grammar) (fresh : Symbol) (e : Grammar) : Prop where
  start_eq : e.start = fresh
  mem : ∀ v, v ∈ e ↔ v ∈ g ∨ v = fresh
  bodies : ∀ v b, b ∈ e.bodies v ↔ (v = fresh ∧ b = Body.epsilon ∧ g.Derives g.start []) ∨
    ∃ c ∈ (g.withFront fresh).bodies v, c ≠ Body.epsilon ∧ b ≠ [] ∧ Body.Drops (g.Derives · []) c b

theorem IsExpanded.isLegal (h : IsExpanded g fresh e) (hg : g.IsLegal)
    (hv : fresh.isVar = true ∧ fresh.IsLegal) : e.IsLegal where
  start_mem := (h.mem _).2 (.inr h.start_eq)
  head v hm := (hg.withFront hv).head v (mem_withFront.2 ((h.mem v).1 hm))
  body v b hb := by
    rcases (h.bodies v b).1 hb with ⟨-, rfl, -⟩ | ⟨c, hc, hce, hb, hd⟩
    · exact .inl rfl
    · have hl := ((hg.withFront hv).body v c hc).isEpsilon_eq_false hce
      exact .inr ⟨hb, fun s hs ↦ hl s (hd.sublist.mem hs)⟩
  closed v u hm := by
    obtain ⟨b, hb, hu⟩ := hm
    rw [Body.mem_vars] at hu
    rcases (h.bodies v b).1 hb with ⟨-, rfl, -⟩ | ⟨c, hc, -, -, hd⟩
    · rw [List.mem_singleton.1 hu.1] at hu
      exact nomatch hu.2
    · exact (h.mem u).2 (.inl (hg.mem_of_mem_vars hc (Body.mem_vars.2 ⟨hd.sublist.mem hu.1, hu.2⟩)))

theorem IsExpanded.derives_iff (h : IsExpanded g fresh e) (hg : g.IsLegal) (hf : fresh ∉ g)
    (hv : v ∈ g) :
    e.Derives v w ↔ g.Derives v w ∧ w ≠ [] := by
  have hne : ∀ v, v ∈ g → v ≠ fresh := fun v hv he ↦ hf (he ▸ hv)
  have hold : ∀ v c, v ∈ g → c ∈ (g.withFront fresh).bodies v → c ∈ g.bodies v := by
    intro v c hv hc
    exact (mem_bodies_withFront.1 hc).resolve_right fun hc ↦ hne v hv hc.1
  constructor
  · intro hw
    refine derives_least (I := fun v w ↦ v ∈ g → g.Derives v w ∧
      w ≠ []) (fun v b hb w hw hv ↦ ?_) hw hv
    obtain ⟨c, hc, hce, hb, hd⟩ := ((h.bodies v b).1 hb).resolve_left fun hb ↦ hne v hv hb.1
    have hcg := hold v c hv hc
    have hin : ∀ u ∈ Body.vars b, u ∈ g := by
      intro u hu
      rw [Body.mem_vars] at hu
      exact hg.closed v u ⟨c, hcg, Body.mem_vars.2 ⟨hd.sublist.mem hu.1, hu.2⟩⟩
    have hl : ∀ s ∈ b, s.IsLegal := fun s hs ↦
      (hg.body v c hcg).isEpsilon_eq_false hce s (hd.sublist.mem hs)
    constructor
    · have hbw : Body.Denotes g.Derives b w := hw.mono fun u hu w hI ↦ (hI (hin u hu)).1
      exact derives_of_mem hcg (hd.denotes (fun _ ↦ id) hbw)
    · intro hx
      subst hx
      exact Body.not_denotes_empty_word hb hl (fun u hu hI ↦ (hI (hin u hu)).2 rfl) hw
  · intro ⟨hw, hwne⟩
    refine derives_induct (I := fun v w ↦ w ≠ [] →
      e.Derives v w) (fun v c hc w hw hwne ↦ ?_) hw hwne
    -- Only the symbols that stand for some letters are kept, so each of them is derived by
    -- induction.
    obtain ⟨b, hd, hb⟩ := Body.Denotes.exists_drops (N := (g.Derives · [])) hw fun s _ hs ↦ hs.1
    have hbne : b ≠ [] := by
      intro hx
      subst hx
      exact hwne hb
    have hce : c ≠ Body.epsilon := by
      intro hx
      subst hx
      exact hwne (Body.denotes_singleton.1 hw)
    have hbe : b ∈ e.bodies v :=
      (h.bodies v b).2 (.inr ⟨c, mem_bodies_withFront.2 (.inl hc), hce, hbne, hd⟩)
    exact derives_of_mem hbe (hb.mono fun u _ w hI ↦ hI.1.2 hI.2)

theorem IsExpanded.derives_start_iff (h : IsExpanded g fresh e) (hg : g.IsLegal) (hf : fresh ∉ g) :
    e.Derives fresh w ↔ g.Derives g.start w := by
  have hvar := hg.isVar_start
  have hunit : ∀ I : Interpretation, Body.Denotes I [g.start] w ↔ I g.start w := by
    intro I
    rw [Body.denotes_singleton, Symbol.denotes_var hvar]
  constructor
  · intro hw
    obtain ⟨b, hb, hbw⟩ := Grammar.derives_iff.1 hw
    rcases (h.bodies fresh b).1 hb with ⟨-, rfl, hs⟩ | ⟨c, hc, -, hbne, hd⟩
    · rwa [Body.denotes_singleton.1 hbw]
    · obtain rfl : c = [g.start] := by
        rcases mem_bodies_withFront.1 hc with hc | ⟨-, hc⟩
        · exact absurd (mem_of_mem_bodies hc) hf
        · exact hc
      obtain rfl : b = [g.start] := hd.sublist.eq_of_length_le (List.length_pos_iff.2 hbne)
      exact ((h.derives_iff hg hf hg.start_mem).1 ((hunit _).1 hbw)).1
  · intro hw
    by_cases hnil : w = []
    · subst hnil
      exact derives_of_mem ((h.bodies _ _).2 (.inl ⟨rfl, rfl, hw⟩)) (Body.denotes_singleton.2 rfl)
    · have hb : [g.start] ∈ e.bodies fresh := by
        refine (h.bodies _ _).2 (.inr ⟨[g.start], mem_bodies_withFront.2 (.inr ⟨rfl, rfl⟩), ?_,
          by simp, .refl _⟩)
        intro he
        rw [List.singleton_inj.1 he] at hvar
        exact nomatch hvar
      exact derives_of_mem hb ((hunit _).2 ((h.derives_iff hg hf hg.start_mem).2 ⟨hw, hnil⟩))

/-- Only the start may have the empty word, and it stands in no body. -/
structure IsEpsilonFree (g : Grammar) : Prop where
  legal : g.IsLegal
  start_off : ∀ v, ¬g.Mentions v g.start
  epsilon : ∀ v, Body.epsilon ∈ g.bodies v → v = g.start

theorem IsEpsilonFree.start_not_mem (hg : g.IsEpsilonFree) (hb : b ∈ g.bodies v) : g.start ∉ b := by
  intro hs
  exact hg.start_off v ⟨b, hb, Body.mem_vars.2 ⟨hs, hg.legal.isVar_start⟩⟩

theorem IsEpsilonFree.of_subset {p : Grammar} (hg : g.IsEpsilonFree) (hp : p.IsLegal)
    (hs : p.start = g.start) (hb : ∀ v, ∀ b ∈ p.bodies v, b ∈ g.bodies v) : p.IsEpsilonFree where
  legal := hp
  start_off v hm := by
    obtain ⟨b, hbm, hu⟩ := hm
    exact hg.start_off v ⟨b, hb v b hbm, hs ▸ hu⟩
  epsilon v he := (hg.epsilon v (hb v _ he)).trans hs.symm

theorem IsEpsilonFree.not_derives_nil (hg : g.IsEpsilonFree) (hv : v ≠ g.start) :
    ¬g.Derives v [] := by
  intro h
  refine derives_induct (I := fun v w ↦ v ≠ g.start → w ≠ []) (fun v b hb w hw hv ↦ ?_) h hv rfl
  intro hx
  subst hx
  have hbe : b ≠ Body.epsilon := fun he ↦ hv (hg.epsilon v (he ▸ hb))
  have hlegal := hg.legal.body v b hb
  refine Body.not_denotes_empty_word hlegal.ne_nil (hlegal.isEpsilon_eq_false hbe)
    (fun u hu hd ↦ ?_) hw
  exact hd.2 (fun he ↦ hg.start_off v (he ▸ ⟨b, hb, hu⟩)) rfl

theorem IsEpsilonFree.derives_nil_iff (hg : g.IsEpsilonFree) :
    g.Derives v [] ↔ v = g.start ∧ Body.epsilon ∈ g.bodies g.start := by
  constructor
  · intro h
    by_cases hv : v = g.start
    · obtain ⟨b, hb, hw⟩ := derives_iff.1 (hv ▸ h)
      refine ⟨hv, ?_⟩
      by_contra he
      have hlegal := hg.legal.body _ b hb
      refine Body.not_denotes_empty_word hlegal.ne_nil
        (hlegal.isEpsilon_eq_false fun hbe ↦ he (hbe ▸ hb))
        (fun u hu ↦ hg.not_derives_nil fun hus ↦ ?_) hw
      have hm : g.Mentions g.start u := ⟨b, hb, hu⟩
      exact hg.start_off _ (hus ▸ hm)
    · exact absurd h (hg.not_derives_nil hv)
  · intro ⟨hv, he⟩
    exact hv ▸ derives_of_mem he (Body.denotes_singleton.2 rfl)

theorem IsLegal.ne_epsilon_of_drops {N : Symbol → Prop} (hg : g.IsLegal) (hc : c ∈ g.bodies v)
    (hce : c ≠ Body.epsilon) (hd : Body.Drops N c b) : b ≠ Body.epsilon := by
  intro hb
  subst hb
  have hl := (hg.body v c hc).isEpsilon_eq_false hce
  exact (hl _ (hd.sublist.mem (List.mem_singleton_self _))).ne_epsilon rfl

theorem IsLegal.epsilon_not_mem_withFront (hg : g.IsLegal) (hf : fresh ∉ g) :
    Body.epsilon ∉ (g.withFront fresh).bodies fresh := by
  intro he
  rcases mem_bodies_withFront.1 he with he | ⟨-, he⟩
  · exact hf (mem_of_mem_bodies he)
  · exact (hg.head _ hg.start_mem).2.ne_epsilon (List.singleton_inj.1 he).symm

theorem IsLegal.drops_withFront_iff (hg : g.IsLegal) (hf : fresh ∉ g)
    (hc : c ∈ (g.withFront fresh).bodies v) :
    Body.Drops ((g.withFront fresh).Derives · []) c b ↔ Body.Drops (g.Derives · []) c b := by
  have hiff : ∀ u ∈ Body.vars c, (g.withFront fresh).Derives u [] ↔ g.Derives u [] := fun u hu ↦
    hg.derives_withFront hf (hg.mem_of_mem_vars hc hu)
  exact ⟨fun h ↦ h.mono fun u hu ↦ (hiff u hu).1, fun h ↦ h.mono fun u hu ↦ (hiff u hu).2⟩

theorem IsExpanded.isEpsilonFree (h : IsExpanded g fresh e) (hg : g.IsLegal) (hf : fresh ∉ g)
    (hv : fresh.isVar = true ∧ fresh.IsLegal) : e.IsEpsilonFree where
  legal := h.isLegal hg hv
  start_off v hm := by
    obtain ⟨b, hb, hu⟩ := hm
    rw [h.start_eq, Body.mem_vars] at hu
    rcases (h.bodies v b).1 hb with ⟨-, rfl, -⟩ | ⟨c, hc, -, -, hd⟩
    · rw [List.mem_singleton.1 hu.1] at hu
      exact nomatch hu.2
    · exact hf (hg.mem_of_mem_vars hc (Body.mem_vars.2 ⟨hd.sublist.mem hu.1, hu.2⟩))
  epsilon v hb := by
    rcases (h.bodies v _).1 hb with ⟨rfl, -, -⟩ | ⟨c, hc, hce, -, hd⟩
    · exact h.start_eq.symm
    · exact absurd rfl ((hg.withFront hv).ne_epsilon_of_drops hc hce hd)

theorem IsPruned.isEpsilonFree {p : Grammar} (h : IsPruned g p) (hg : g.IsEpsilonFree) :
    p.IsEpsilonFree :=
  hg.of_subset (h.isLegal hg.legal) h.start_eq fun v b hb ↦ ((h.bodies v b).1 hb).2.1

end Grammar

namespace Session

open Grammar

variable {s : Session} {fresh v : Symbol} {b : Body}

theorem freshStart_not_mem_names (s : Session) (allocator : Option Allocator) :
    s.freshStart allocator ∉ s.grammar.names ∧
    ∀ a ∈ allocator, s.freshStart allocator ∉ a.used := by
  cases allocator with
  | none => exact ⟨(freshStart_insertMany ∅ s.grammar.names).2, nofun⟩
  | some a =>
    obtain ⟨hused, hnames⟩ := freshStart_insertMany a.used s.grammar.names
    exact ⟨hnames, fun b hb ↦ Option.mem_some.1 hb ▸ hused⟩

theorem exists_findNullable (hg : s.grammar.IsLegal) :
    ∃ t nullable, s.findNullable = .ok (t, nullable) ∧
    t.grammar = s.grammar ∧ t.helpers = s.helpers ∧ ∀ v, v ∈ nullable ↔ s.grammar.Derives v [] := by
  obtain ⟨layers, he, hl⟩ := hg.exists_nullableLayers
  refine ⟨_, layered layers, by rw [findNullable, expect_eq_ok.2 he]; rfl, by simp, ?_, hl⟩
  refine helpers_note_of_forall fun a ha ↦ ?_
  rw [List.mem_append, List.mem_map, List.mem_singleton] at ha
  rcases ha with ⟨e, -, rfl⟩ | rfl
  · rfl
  · rfl

/-- Adding the variants of each variable in turn adds those of the bodies that it has at first. -/
theorem amended_addVariants (s : Session) (nullable : List Symbol) :
    Amended (fun v b ↦ b ∈ s.grammar.bodies v ∨
        ∃ c ∈ s.grammar.bodies v, c ≠ Body.epsilon ∧ b ∈ c.variants nullable)
      s.grammar.sortedHeads.reverse s (s.grammar.sortedHeads.foldl (addVariants nullable) s) := by
  refine amended_foldl_sortedHeads fun done t v hv hd h ↦ ?_
  have hvar : ∀ b, b ∈ t.grammar.newVariants nullable v ↔
      (∃ c ∈ s.grammar.bodies v, c ≠ Body.epsilon ∧ b ∈ c.variants nullable) ∧
      b ∉ s.grammar.bodies v := by
    intro b
    simp only [newVariants, mem_news, List.mem_flatMap, List.mem_filter, Bool.not_eq_true',
      Body.isEpsilon_eq_false, h.rest v hd, and_assoc]
  refine h.cons_extend hv (t.grammar.newVariants nullable v) (fun hnil ↦ ?_)
    (fun hne ↦ ?_) (fun b ↦ ?_)
  · rw [addVariants, hnil]
  · rw [addVariants]
    split
    · contradiction
    · exact ⟨grammar_commit .., helpers_commit_of_eq_nil rfl⟩
  · rw [hvar, h.rest v hd]
    by_cases hb : b ∈ s.grammar.bodies v
    · simp [hb]
    · simp [hb]

theorem start_dropEpsilons (s : Session) : s.dropEpsilons.grammar.start = s.grammar.start := by
  rw [dropEpsilons]
  split
  · rfl
  · rw [grammar_commit, start_filterBodies]

theorem mem_dropEpsilons : v ∈ s.dropEpsilons.grammar ↔ v ∈ s.grammar := by
  rw [dropEpsilons]
  split
  · exact .rfl
  · rw [grammar_commit, mem_filterBodies]

theorem mem_bodies_dropEpsilons : b ∈ s.dropEpsilons.grammar.bodies v ↔
    b ∈ s.grammar.bodies v ∧ (v = s.grammar.start ∨ b ≠ Body.epsilon) := by
  rw [dropEpsilons]
  split
  · rename_i hnil
    refine iff_self_and.2 fun hb ↦ or_iff_not_imp_left.2 fun hv he ↦ ?_
    have h := List.filter_eq_nil_iff.1 hnil v (mem_sortedHeads.2 (mem_of_mem_bodies hb))
    exact h (by simp [hv, ← he, hb])
  · rw [grammar_commit, mem_bodies_filterBodies]
    simp [Body.isEpsilon_eq_false]

theorem helpers_dropEpsilons (s : Session) : s.dropEpsilons.helpers = s.helpers := by
  rw [dropEpsilons]
  split
  · rfl
  · exact helpers_commit_of_eq_nil rfl

theorem exists_pruneEmpty (s : Session) :
    ∃ t, s.pruneEmpty = .ok t ∧ IsPruned s.grammar t.grammar ∧ t.helpers = s.helpers := by
  obtain ⟨p, he, hp, hsame⟩ := exists_pruned s.grammar
  refine ⟨_, by rw [pruneEmpty, expect_eq_ok.2 he]; rfl, ?_, helpers_commit_unless rfl⟩
  rwa [grammar_commit_unless fun h ↦ ?_]
  rw [Bool.and_eq_true, List.isEmpty_iff, List.isEmpty_iff] at h
  exact (hsame h.1 h.2).symm

def keepEpsilon (s : Session) (fresh old : Symbol) (nullable : List Symbol) : Session :=
  if fresh ∈ nullable then
    s.commit (s.grammar.extend fresh [Body.epsilon]) (.startEpsilon old) [fresh]
      [⟨fresh, Body.epsilon⟩] []
  else s

variable {old : Symbol} {nullable : List Symbol}

theorem start_keepEpsilon : (s.keepEpsilon fresh old nullable).grammar.start = s.grammar.start := by
  rw [keepEpsilon]
  split
  · rw [grammar_commit, start_extend]
  · rfl

theorem mem_keepEpsilon (hf : fresh ∈ s.grammar) : v ∈ (s.keepEpsilon fresh old nullable).grammar ↔
    v ∈ s.grammar := by
  rw [keepEpsilon]
  split
  · rw [grammar_commit, mem_extend, or_iff_left_iff_imp]
    exact fun h ↦ h ▸ hf
  · exact .rfl

theorem mem_bodies_keepEpsilon : b ∈ (s.keepEpsilon fresh old nullable).grammar.bodies v ↔
    b ∈ s.grammar.bodies v ∨ v = fresh ∧ b = Body.epsilon ∧ fresh ∈ nullable := by
  rw [keepEpsilon]
  split
  · rename_i h
    rw [grammar_commit, mem_bodies_extend, List.mem_singleton]
    simp [h]
  · rename_i h
    simp [h]

theorem helpers_keepEpsilon : (s.keepEpsilon fresh old nullable).helpers = s.helpers := by
  rw [keepEpsilon]
  split
  · exact helpers_commit_of_eq_nil rfl
  · rfl

def expand (s : Session) (nullable : List Symbol) : Session :=
  (s.grammar.sortedHeads.foldl (addVariants nullable) s).dropEpsilons

theorem start_expand : (s.expand nullable).grammar.start = s.grammar.start := by
  rw [expand, start_dropEpsilons, (amended_addVariants s nullable).start_eq]

theorem mem_expand : v ∈ (s.expand nullable).grammar ↔ v ∈ s.grammar := by
  rw [expand, mem_dropEpsilons, (amended_addVariants s nullable).mem]

theorem helpers_expand : (s.expand nullable).helpers = s.helpers := by
  rw [expand, helpers_dropEpsilons, (amended_addVariants s nullable).helpers_eq]

theorem mem_bodies_expand : b ∈ (s.expand nullable).grammar.bodies v ↔ (b ∈ s.grammar.bodies v ∨
    ∃ c ∈ s.grammar.bodies v, c ≠ Body.epsilon ∧ b ∈ c.variants nullable) ∧
      (v = s.grammar.start ∨ b ≠ Body.epsilon) := by
  have h := amended_addVariants s nullable
  rw [expand, mem_bodies_dropEpsilons, h.start_eq, h.bodies_iff]
  intro u c hc
  rcases hc with hc | ⟨d, hd, -⟩
  · exact mem_of_mem_bodies hc
  · exact mem_of_mem_bodies hd

theorem isExpanded_expand {g : Grammar} (hg : g.IsLegal) (hf : fresh ∉ g)
    (hv : fresh.isVar = true ∧ fresh.IsLegal) (hs : s.grammar = g.withFront fresh)
    (hn : ∀ v, v ∈ nullable ↔ (g.withFront fresh).Derives v []) :
    g.IsExpanded fresh ((s.keepEpsilon fresh old nullable).expand nullable).grammar := by
  have hlegal := hg.withFront hv
  have hstart : (s.keepEpsilon fresh old nullable).grammar.start = fresh := by
    rw [start_keepEpsilon, hs, start_withFront]
  have hb : ∀ v b, b ∈ (s.keepEpsilon fresh old nullable).grammar.bodies v ↔
      b ∈ (g.withFront fresh).bodies v ∨ v = fresh ∧ b = Body.epsilon ∧ g.Derives g.start [] := by
    intro v b
    rw [mem_bodies_keepEpsilon, hs, hn, hg.derives_withFront_start hf]
  have hdrops : ∀ c b, Body.Drops (· ∈ nullable) c b ↔
      Body.Drops ((g.withFront fresh).Derives · []) c b := by
    intro c b
    simp only [hn]
  refine ⟨start_expand.trans hstart, fun v ↦ ?_, fun v b ↦ ?_⟩
  · rw [mem_expand, mem_keepEpsilon, hs, mem_withFront]
    rw [hs, mem_withFront]
    exact .inr rfl
  · rw [mem_bodies_expand, hstart]
    constructor
    · intro ⟨h, hvb⟩
      rcases h with h | ⟨c, hc, hce, hbv⟩
      · refine ((hb v b).1 h).symm.imp_right fun h ↦ ?_
        have hbe : b ≠ Body.epsilon :=
          hvb.elim (fun hv he ↦ hg.epsilon_not_mem_withFront hf (he ▸ hv ▸ h)) id
        exact ⟨b, h, hbe, (hlegal.body v b h).ne_nil, .refl b⟩
      · have hc' := ((hb v c).1 hc).resolve_right fun h ↦ hce h.2.1
        obtain ⟨hbne, hd, -⟩ := Body.mem_variants.1 hbv
        exact .inr ⟨c, hc', hce, hbne, (hg.drops_withFront_iff hf hc').1 ((hdrops c b).1 hd)⟩
    · intro h
      rcases h with h | ⟨c, hc, hce, hbne, hd⟩
      · exact ⟨.inl ((hb v b).2 (.inr h)), .inl h.1⟩
      · have hct := (hb v c).2 (.inl hc)
        have hd' := (hdrops c b).2 ((hg.drops_withFront_iff hf hc).2 hd)
        refine ⟨?_, .inr (hlegal.ne_epsilon_of_drops hc hce hd)⟩
        rcases (Body.eq_or_mem_variants (hlegal.body v c hc).ne_nil).2 ⟨hbne, hd'⟩ with rfl | hbv
        · exact .inl hct
        · exact .inr ⟨c, hct, hce, hbv⟩

theorem eliminateEpsilon_eq (s : Session) (fresh : Symbol) : s.eliminateEpsilon fresh =
    ((s.introduceStart fresh).findNullable >>= fun t ↦
      ((t.1.keepEpsilon fresh s.grammar.start t.2).expand t.2).pruneEmpty >>= fun x ↦
        pure (x, t.2)) :=
  rfl

theorem exists_eliminateEpsilon (hg : s.grammar.IsLegal) (hf : fresh ∉ s.grammar)
    (hv : fresh.isVar = true ∧ fresh.IsLegal) :
    ∃ t nullable e, s.eliminateEpsilon fresh = .ok (t, nullable) ∧ t.helpers = s.helpers ∧
      IsExpanded s.grammar fresh e ∧ IsPruned e t.grammar := by
  have hfront : (s.introduceStart fresh).grammar = s.grammar.withFront fresh := grammar_commit ..
  obtain ⟨t₁, nullable, he₁, hg₁, hh₁, hn⟩ := exists_findNullable (hfront ▸ hg.withFront hv)
  rw [hfront] at hg₁ hn
  let t₂ := t₁.keepEpsilon fresh s.grammar.start nullable
  obtain ⟨t₃, he₃, hp, hh₃⟩ := exists_pruneEmpty (t₂.expand nullable)
  refine ⟨t₃, nullable, (t₂.expand nullable).grammar, ?_, ?_, isExpanded_expand hg hf hv hg₁ hn, hp⟩
  · rw [eliminateEpsilon_eq]
    exact bind_eq_ok.2 ⟨(t₁, nullable), he₁, bind_eq_ok.2 ⟨t₃, he₃, rfl⟩⟩
  · rw [hh₃, helpers_expand, helpers_keepEpsilon, hh₁]
    exact helpers_commit_of_eq_nil rfl

end Session

end ChomskyNormalForm
