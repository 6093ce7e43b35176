import ChomskyNormalForm.Proofs.Analysis.Layers
import ChomskyNormalForm.Proofs.Grammar.Legal

namespace ChomskyNormalForm

theorem map_fst_filterMap_sublist {α β : Type} {f : Symbol × α → Option (Symbol × β)}
    (hf : ∀ e d, f e = some d → d.1 = e.1) (es : List (Symbol × α)) :
    ((es.filterMap f).map Prod.fst).Sublist (es.map Prod.fst) := by
  induction es with
  | nil => exact .slnil
  | cons e es ih =>
    rw [List.filterMap_cons]
    cases h : f e with
    | none => exact ih.cons _
    | some d =>
      rw [List.map_cons, List.map_cons, hf e d h]
      exact ih.cons_cons _

theorem Body.isOver_iff {held : SymbolSet} {b : Body} :
    b.isOver held = true ↔ ∀ u ∈ Body.vars b, u ∈ held := by
  simp [isOver]

namespace Grammar

variable {g : Grammar} {v : Symbol}

theorem nodup_map_fst_sortedEntries : (g.sortedEntries.map Prod.fst).Nodup :=
  ((sortBy_perm _ _).map _).nodup_iff.2 g.rules.keys_nodup

inductive IsGrounded (g : Grammar) : Symbol → Prop
  | intro {v : Symbol} {b : Body} :
      b ∈ g.bodies v → (∀ u ∈ Body.vars b, IsGrounded g u) → IsGrounded g v

theorem mem_productiveLayer {known : SymbolSet} {e : Symbol × List Body} :
    e ∈ productiveLayer g.sortedEntries known ↔
      e.1 ∉ known ∧ e.2 = (g.bodies e.1).filter (Body.isOver known) ∧ e.2 ≠ [] := by
  obtain ⟨v, bs⟩ := e
  simp only [productiveLayer, List.mem_filterMap]
  constructor
  · intro h
    obtain ⟨⟨u, cs⟩, hu, he⟩ := h
    obtain ⟨-, hcs⟩ := mem_sortedEntries.1 hu
    dsimp only at he hcs
    subst hcs
    split at he
    · exact nomatch he
    · rename_i hk
      split at he
      · exact nomatch he
      · rename_i hne
        cases he
        exact ⟨hk, rfl, hne⟩
  · intro h
    obtain ⟨hk, rfl, hne⟩ := h
    refine ⟨(v, g.bodies v), mem_sortedEntries.2 ⟨?_, rfl⟩, ?_⟩
    · obtain ⟨b, hb⟩ := List.exists_mem_of_ne_nil _ hne
      exact mem_of_mem_bodies (List.mem_filter.1 hb).1
    · simp only [if_neg hk]

theorem productiveLayers_eq (g : Grammar) : g.productiveLayers =
    settled "productive set" (g.heads.length + 1)
    (fun _ ↦ layerRound (productiveLayer g.sortedEntries))
      [productiveLayer g.sortedEntries ∅] := by
  unfold productiveLayers
  dsimp only
  congr 1
  funext _ layers
  unfold layerRound
  cases productiveLayer g.sortedEntries (.ofList (layered layers)) <;> rfl

theorem map_fst_productiveLayer_sublist (es : List (Symbol × List Body)) (known : SymbolSet) :
    ((productiveLayer es known).map Prod.fst).Sublist (es.map Prod.fst) := by
  refine map_fst_filterMap_sublist ?_ es
  intro h d he
  obtain ⟨u, cs⟩ := h
  dsimp only at he
  split at he
  · exact nomatch he
  · split at he
    · exact nomatch he
    · cases he
      rfl

theorem isLayering_productiveLayer (g : Grammar) :
    IsLayering (productiveLayer g.sortedEntries) g.heads where
  nodup known := (map_fst_productiveLayer_sublist _ known).nodup nodup_map_fst_sortedEntries
  mem known e he := by
    obtain ⟨-, he, hne⟩ := mem_productiveLayer.1 he
    obtain ⟨b, hb⟩ := List.exists_mem_of_ne_nil _ hne
    exact mem_of_mem_bodies (List.mem_filter.1 (he ▸ hb)).1
  not_mem known e he := (mem_productiveLayer.1 he).1

theorem exists_stack_productiveLayers (g : Grammar) : ∃ layers, g.productiveLayers = .ok layers ∧
    productiveLayer g.sortedEntries (.ofList (layered layers)) = [] ∧
    IsStack (productiveLayer g.sortedEntries) (productiveLayer g.sortedEntries ∅) layers := by
  have hl := isLayering_productiveLayer g
  obtain ⟨layers, he, hnil, -, hstack⟩ := settled_layers "productive set" hl (hl.nodup ∅) (hl.mem ∅)
  exact ⟨layers, (productiveLayers_eq g).trans he, hnil, hstack⟩

theorem exists_productiveLayers (g : Grammar) :
    ∃ layers, g.productiveLayers = .ok layers ∧ ∀ v, v ∈ layered layers ↔ g.IsGrounded v := by
  obtain ⟨layers, he, hnil, hstack⟩ := exists_stack_productiveLayers g
  have grounded : ∀ known : SymbolSet, (∀ v ∈ known, g.IsGrounded v) →
      ∀ e ∈ productiveLayer g.sortedEntries known, g.IsGrounded e.1 := by
    intro known hknown e he
    obtain ⟨-, he, hne⟩ := mem_productiveLayer.1 he
    obtain ⟨b, hb⟩ := List.exists_mem_of_ne_nil _ hne
    rw [he, List.mem_filter, Body.isOver_iff] at hb
    exact .intro hb.1 fun u hu ↦ hknown u (hb.2 u hu)
  refine ⟨layers, he, fun v ↦ ⟨fun hv ↦ ?_, fun hv ↦ ?_⟩⟩
  · exact hstack.induct (grounded ∅ (by simp)) grounded v hv
  · induction hv with
    | @intro v b hb _ ih =>
      by_contra hv
      have hmem : (v, (g.bodies v).filter (Body.isOver (.ofList (layered layers)))) ∈
          productiveLayer g.sortedEntries (.ofList (layered layers)) := by
        refine mem_productiveLayer.2 ⟨fun h ↦ hv (SymbolSet.mem_ofList.1 h), rfl, ?_⟩
        refine List.ne_nil_of_mem (List.mem_filter.2 ⟨hb, Body.isOver_iff.2 ?_⟩)
        exact fun u hu ↦ SymbolSet.mem_ofList.2 (ih u hu)
      rw [hnil] at hmem
      exact List.not_mem_nil hmem

theorem exists_productive (g : Grammar) :
    ∃ vs, g.productive = .ok vs ∧ ∀ v, v ∈ vs ↔ g.IsGrounded v := by
  obtain ⟨layers, he, h⟩ := exists_productiveLayers g
  exact ⟨layered layers, by rw [productive, he]; rfl, h⟩

theorem IsProductive.isGrounded (h : g.IsProductive v) : g.IsGrounded v := by
  obtain ⟨w, hw⟩ := h
  refine derives_least (I := fun v _ ↦ g.IsGrounded v) (fun v b hb w hw ↦ ?_) hw
  refine .intro hb fun u hu ↦ ?_
  rw [Body.mem_vars] at hu
  obtain ⟨x, hx⟩ := hw.exists_of_mem hu.1
  exact (Symbol.denotes_var hu.2).1 hx

def IsProper (g : Grammar) : Prop := ∀ v, ∀ b ∈ g.bodies v, ∀ t, Symbol.foreign t ∉ b

theorem IsProper.exists_denotes {I : Interpretation} {b : Body} (hg : ∀ t, Symbol.foreign t ∉ b)
    (h : ∀ u ∈ Body.vars b, ∃ w, I u w) : ∃ w, Body.Denotes I b w := by
  refine Body.exists_denotes fun s hs ↦ ?_
  cases s with
  | var name => exact h _ (Body.mem_vars.2 ⟨hs, rfl⟩)
  | terminal a => exact ⟨_, rfl⟩
  | epsilon => exact ⟨_, rfl⟩
  | foreign t => exact absurd hs (hg t)

theorem IsProper.isGrounded_iff (hg : g.IsProper) : g.IsGrounded v ↔ g.IsProductive v := by
  refine ⟨fun h ↦ ?_, IsProductive.isGrounded⟩
  induction h with
  | intro hb _ ih =>
    obtain ⟨w, hw⟩ := IsProper.exists_denotes (hg _ _ hb) ih
    exact ⟨w, derives_of_mem hb hw⟩

theorem IsLegal.isProper (hg : g.IsLegal) : g.IsProper := by
  intro v b hb t ht
  rcases hg.body v b hb with rfl | ⟨-, h⟩
  · simp at ht
  · exact h _ ht

end Grammar

end ChomskyNormalForm
