import ChomskyNormalForm.Proofs.Analysis.Cycle
import ChomskyNormalForm.Proofs.NormalForm.Correctness
import Mathlib.Data.Finite.Prod
import Mathlib.Data.Set.Finite.Lattice

namespace ChomskyNormalForm

variable {I : Interpretation} {s : Symbol}

theorem Symbol.finite_denotes (h : s.isVar = true → {w | I s w}.Finite) :
    {w | s.Denotes I w}.Finite := by
  cases s with
  | var name => exact h rfl
  | terminal a => exact Set.finite_singleton a.toList
  | epsilon => exact Set.finite_singleton []
  | foreign t => exact Set.finite_empty

namespace Body

variable {b : Body} {x : Word}

theorem finite_denotes (h : ∀ v ∈ vars b, {w | I v w}.Finite) :
    {w | Body.Denotes I b w}.Finite := by
  induction b with
  | nil => exact Set.finite_singleton []
  | cons s b ih =>
    have hs : {w | s.Denotes I w}.Finite :=
      Symbol.finite_denotes fun hs ↦ h s (mem_vars.2 ⟨List.mem_cons_self, hs⟩)
    have hb := ih fun v hv ↦ h v (mem_vars_cons hv)
    refine (hs.image2 (· ++ ·) hb).subset fun w hw ↦ ?_
    obtain ⟨u, x, rfl, hu, hx⟩ := hw
    exact Set.mem_image2_of_mem hu hx

theorem exists_denotes_length_le (h : ∀ s ∈ b, ∃ u ≠ [], s.Denotes I u) :
    ∃ w, Body.Denotes I b w ∧ b.length ≤ w.length := by
  induction b with
  | nil => exact ⟨[], rfl, Nat.le_refl 0⟩
  | cons s b ih =>
    obtain ⟨u, hne, hu⟩ := h s List.mem_cons_self
    obtain ⟨w, hw, hle⟩ := ih fun t ht ↦ h t (List.mem_cons_of_mem _ ht)
    have hpos := List.length_pos_iff.2 hne
    refine ⟨u ++ w, ⟨u, w, rfl, hu, hw⟩, ?_⟩
    rw [List.length_cons, List.length_append]
    omega

theorem exists_denotes_length_lt (hl : 2 ≤ b.length)
    (h : ∀ t ∈ b, ∃ u ≠ [], t.Denotes I u) (hs : s ∈ b) (hx : s.Denotes I x) :
    ∃ w, Body.Denotes I b w ∧ x.length < w.length := by
  obtain ⟨p, q, rfl⟩ := List.append_of_mem hs
  obtain ⟨y, hy, hle⟩ := exists_denotes_length_le fun t ht ↦ h t (List.mem_append_left _ ht)
  obtain ⟨z, hz, hle'⟩ :=
    exists_denotes_length_le fun t ht ↦ h t (List.mem_append_right p (List.mem_cons_of_mem _ ht))
  refine ⟨y ++ (x ++ z), denotes_append.2 ⟨y, x ++ z, rfl, hy, x, z, rfl, hx, hz⟩, ?_⟩
  rw [List.length_append, List.length_cons] at hl
  rw [List.length_append, List.length_append]
  omega

end Body

namespace Grammar

variable {g : Grammar} {u v : Symbol} {w x : Word}

theorem finite_derives (hI : ∀ b ∈ g.bodies v, {w | Body.Denotes g.Derives b w}.Finite) :
    {w | g.Derives v w}.Finite := by
  refine ((g.bodies v).finite_toSet.biUnion hI).subset fun w hw ↦ ?_
  obtain ⟨b, hb, hbw⟩ := derives_iff.1 hw
  exact Set.mem_biUnion hb hbw

/-- From a variable without endless paths only so many words are derived. -/
theorem IsLegal.finite_derives (hg : g.IsLegal) (hv : CycleSearch.IsSink g.neighbours v) :
    {w | g.Derives v w}.Finite := by
  induction hv with
  | intro v _ ih =>
    refine Grammar.finite_derives fun b hb ↦ Body.finite_denotes fun u hu ↦ ih u ?_
    have hm : g.Mentions v u := ⟨b, hb, hu⟩
    exact mem_neighbours.2 ⟨hm, hg.closed v u hm⟩

namespace IsUnitFree

theorem exists_derives_ne_nil (hg : g.IsUnitFree) (hm : g.Mentions v u) :
    ∃ w ≠ [], g.Derives u w := by
  obtain ⟨w, hw⟩ := (hg.useful u (hg.legal.closed v u hm)).2
  refine ⟨w, ?_, hw⟩
  intro h
  subst h
  exact hg.not_derives_nil (fun he ↦ hg.start_off v (he ▸ hm)) hw

theorem two_le_length (hg : g.IsUnitFree) {b : Body} (hb : b ∈ g.bodies v) (hu : u ∈ Body.vars b) :
    2 ≤ b.length := by
  have hmem := Body.mem_vars.1 hu
  match b, hb, hmem with
  | [s], hb, hmem =>
    rw [List.mem_singleton] at hmem
    exact absurd (by rw [hmem.1]) (Body.isUnit_eq_false.1 (hg.isUnit v [s] hb) u hmem.2)
  | _ :: _ :: _, _, _ => simp

/-- Each step up a derivation prolongs the word. -/
theorem exists_longer (hg : g.IsUnitFree) (hm : g.Mentions v u) (hx : g.Derives u x) :
    ∃ w, g.Derives v w ∧ x.length < w.length := by
  have hvar := hm.isVar
  obtain ⟨b, hb, hu⟩ := hm
  have hlegal := hg.legal.body v b hb
  have hl := hg.two_le_length hb hu
  have hbe : b ≠ Body.epsilon := by
    intro h
    subst h
    exact absurd hl (by decide)
  have hletters : ∀ t ∈ b, ∃ y ≠ [], t.Denotes g.Derives y := by
    intro t ht
    have htl := hlegal.isEpsilon_eq_false hbe t ht
    cases t with
    | var name => exact hg.exists_derives_ne_nil ⟨b, hb, Body.mem_vars.2 ⟨ht, rfl⟩⟩
    | terminal a => exact ⟨a.toList, htl.toList_ne_nil, rfl⟩
    | epsilon => exact absurd htl id
    | foreign t => exact absurd htl id
  obtain ⟨w, hw, hlt⟩ :=
    Body.exists_denotes_length_lt hl hletters (Body.mem_vars.1 hu).1
      ((Symbol.denotes_var hvar).2 hx)
  exact ⟨w, derives_of_mem hb hw, hlt⟩

theorem exists_longer_of_chain (hg : g.IsUnitFree) {l : List Symbol}
    (hl : (v :: (l ++ [u])).IsChain fun a b ↦ b ∈ g.neighbours a) (hx : g.Derives u x) :
    ∃ w, g.Derives v w ∧ x.length < w.length := by
  induction l generalizing v with
  | nil =>
    rw [List.nil_append, List.isChain_pair] at hl
    exact hg.exists_longer (mem_neighbours.1 hl).1 hx
  | cons t l ih =>
    rw [List.cons_append, List.isChain_cons_cons] at hl
    obtain ⟨y, hy, hlt⟩ := ih hl.2
    obtain ⟨w, hw, hlt'⟩ := hg.exists_longer (mem_neighbours.1 hl.1).1 hy
    exact ⟨w, hw, by omega⟩

theorem exists_of_reaches (hg : g.IsUnitFree) (hr : g.Reaches v u) (hx : g.Derives u x) :
    ∃ w, g.Derives v w ∧ x.length ≤ w.length := by
  induction hr generalizing x with
  | refl => exact ⟨x, hx, Nat.le_refl _⟩
  | tail _ hm ih =>
    obtain ⟨y, hy, hlt⟩ := hg.exists_longer hm hx
    obtain ⟨w, hw, hle⟩ := ih hy
    exact ⟨w, hw, by omega⟩

/-- Going round a cycle again and again gives words of any length. -/
theorem exists_length_le (hg : g.IsUnitFree) {c : List Symbol}
    (hc : IsCycle g.neighbours c) (k : ℕ) :
    ∃ w, g.Generates w ∧ k ≤ w.length := by
  obtain ⟨v, l, rfl, -, hchain⟩ := hc
  rw [List.cons_append] at hchain
  have hv : v ∈ g := by
    cases l with
    | nil =>
      rw [List.nil_append, List.isChain_pair] at hchain
      exact (mem_neighbours.1 hchain).2
    | cons t l =>
      rw [List.cons_append, List.isChain_cons_cons] at hchain
      exact (mem_neighbours.1 hchain.1).1.mem
  -- After `k` rounds the variable has a word of `k` letters, and the start has one that is no
  -- shorter.
  have hround : ∀ k, ∃ w, g.Derives v w ∧ k ≤ w.length := by
    intro k
    induction k with
    | zero =>
      obtain ⟨w, hw⟩ := (hg.useful v hv).2
      exact ⟨w, hw, Nat.zero_le _⟩
    | succ k ih =>
      obtain ⟨x, hx, hle⟩ := ih
      obtain ⟨w, hw, hlt⟩ := hg.exists_longer_of_chain hchain hx
      exact ⟨w, hw, by omega⟩
  obtain ⟨x, hx, hle⟩ := hround k
  obtain ⟨w, hw, hle'⟩ := hg.exists_of_reaches (hg.useful v hv).1 hx
  exact ⟨w, hw, hle.trans hle'⟩

theorem infinite_iff (hg : g.IsUnitFree) : {w | g.Generates w}.Infinite ↔
    g.searchCycle.cycle ≠ [] := by
  obtain ⟨hcycle, hsink⟩ := g.searchCycle_spec
  constructor
  · intro hinf hc
    exact hinf (hg.legal.finite_derives (hsink hc _ hg.legal.start_mem))
  · intro hc
    refine Set.Infinite.of_image List.length fun hfin ↦ ?_
    obtain ⟨bound, hbound⟩ := hfin.bddAbove
    obtain ⟨w, hw, hle⟩ := hg.exists_length_le (hcycle hc) (bound + 1)
    have h := hbound (Set.mem_image_of_mem List.length hw)
    omega

end IsUnitFree

variable {n : Normalization}

/-- The search for a cycle in the normal form tells whether there are infinitely many words. -/
theorem isInfinite_iff (hc : g.check = .ok ()) (hw : ∃ w, g.Generates w)
    (hn : g.normalize = .ok n) :
    (n.isInfinite = some true ↔ {w | g.Generates w}.Infinite) ∧
    (n.isInfinite = some false ↔ {w | g.Generates w}.Finite) := by
  have h := isNormalized_of_normalize hc hw hn
  have hsame : {w | n.grammar.Generates w} = {w | g.Generates w} := Set.ext h.generates_iff
  have hinf := h.isBinary.infinite_iff
  rw [hsame] at hinf
  rw [h.isInfinite_eq, hinf, ← Set.not_infinite, hinf]
  cases n.grammar.searchCycle.cycle with
  | nil => simp
  | cons v l => simp

theorem isInfinite_iff_balanced : ∃ n, balanced.normalize = .ok n ∧ n.isInfinite = some true ∧
    {w | balanced.Generates w}.Infinite := by
  obtain ⟨n, hn, hi⟩ := exists_normalize_balanced
  exact ⟨n, hn, hi, (isInfinite_iff rfl ⟨[], balanced_generates⟩ hn).1.1 hi⟩

end Grammar

end ChomskyNormalForm
