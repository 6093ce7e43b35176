import ChomskyNormalForm.Analysis.Rounds
import ChomskyNormalForm.Proofs.Analysis.Productive
import ChomskyNormalForm.Proofs.Language.Erasure

namespace ChomskyNormalForm

theorem Body.isNullable_iff {known : SymbolSet} {b : Body} :
    b.isNullable known = true ↔ ∀ s ∈ b, s.isVar = true ∧ s ∈ known := by
  simp [isNullable]

theorem Body.isEpsilon_eq_false {b : Body} : b.isEpsilon = false ↔ b ≠ Body.epsilon := by
  simp [isEpsilon]

namespace Grammar

variable {g : Grammar} {v : Symbol} {b : Body} {known : SymbolSet} {e : Symbol × Body}

theorem mem_epsilonLayer :
    e ∈ epsilonLayer g.sortedEntries ↔ Body.epsilon ∈ g.bodies e.1 ∧ e.2 = Body.epsilon := by
  obtain ⟨v, b⟩ := e
  simp only [epsilonLayer, List.mem_map, List.mem_filter, decide_eq_true_eq]
  constructor
  · intro h
    obtain ⟨⟨u, cs⟩, ⟨hu, hb⟩, he⟩ := h
    obtain ⟨-, hcs⟩ := mem_sortedEntries.1 hu
    cases he
    exact ⟨hcs ▸ hb, rfl⟩
  · intro h
    obtain ⟨hb, rfl⟩ := h
    exact ⟨(v, g.bodies v), ⟨mem_sortedEntries.2 ⟨mem_of_mem_bodies hb, rfl⟩, hb⟩, rfl⟩

theorem mem_nullableLayer (he : e ∈ nullableLayer g.sortedEntries known) :
    e.1 ∉ known ∧ e.2 ∈ g.bodies e.1 ∧ e.2 ≠ Body.epsilon ∧ e.2.isNullable known = true := by
  simp only [nullableLayer, List.mem_filterMap] at he
  obtain ⟨⟨u, cs⟩, hu, he⟩ := he
  obtain ⟨-, hcs⟩ := mem_sortedEntries.1 hu
  dsimp only at he hcs
  split at he
  · exact nomatch he
  · rename_i hk
    obtain ⟨b, hb, rfl⟩ := Option.map_eq_some_iff.1 he
    have hp := List.find?_some hb
    rw [Bool.and_eq_true, Bool.not_eq_true', Body.isEpsilon_eq_false] at hp
    exact ⟨hk, hcs ▸ List.mem_of_find?_eq_some hb, hp⟩

theorem exists_mem_nullableLayer (hk : v ∉ known) (hb : b ∈ g.bodies v) (hne : b ≠ Body.epsilon)
    (hn : b.isNullable known = true) : ∃ e ∈ nullableLayer g.sortedEntries known, e.1 = v := by
  have hf : ((g.bodies v).find? fun b ↦ !b.isEpsilon && b.isNullable known).isSome = true := by
    rw [List.find?_isSome]
    exact ⟨b, hb, by simp [Body.isEpsilon_eq_false.2 hne, hn]⟩
  obtain ⟨c, hc⟩ := Option.isSome_iff_exists.1 hf
  refine ⟨(v, c), ?_, rfl⟩
  simp only [nullableLayer, List.mem_filterMap]
  refine ⟨(v, g.bodies v), mem_sortedEntries.2 ⟨mem_of_mem_bodies hb, rfl⟩, ?_⟩
  simp only [if_neg hk, hc, Option.map_some]

theorem isLayering_nullableLayer (g : Grammar) :
    IsLayering (nullableLayer g.sortedEntries) g.heads where
  nodup known := by
    refine (map_fst_filterMap_sublist ?_ _).nodup nodup_map_fst_sortedEntries
    intro h d he
    obtain ⟨u, cs⟩ := h
    dsimp only at he
    split at he
    · exact nomatch he
    · obtain ⟨b, -, rfl⟩ := Option.map_eq_some_iff.1 he
      rfl
  mem known e he := mem_of_mem_bodies (mem_nullableLayer he).2.1
  not_mem known e he := (mem_nullableLayer he).1

theorem nodup_epsilonLayer (g : Grammar) : ((epsilonLayer g.sortedEntries).map Prod.fst).Nodup := by
  have h : (epsilonLayer g.sortedEntries).map Prod.fst =
      (g.sortedEntries.filter (Body.epsilon ∈ ·.2)).map Prod.fst := by
    simp [epsilonLayer, Function.comp_def]
  rw [h]
  exact (List.filter_sublist.map _).nodup nodup_map_fst_sortedEntries

theorem nullableLayers_eq (g : Grammar) : g.nullableLayers =
    settled "nullable set" (g.heads.length + 1) (fun _ ↦ layerRound (nullableLayer g.sortedEntries))
      [epsilonLayer g.sortedEntries] := by
  unfold nullableLayers
  dsimp only
  congr 1
  funext _ layers
  unfold layerRound
  cases nullableLayer g.sortedEntries (.ofList (layered layers)) <;> rfl

/-- The sign of the empty word stands alone. -/
def IsMarked (g : Grammar) : Prop := ∀ v, ∀ b ∈ g.bodies v, Symbol.epsilon ∈ b → b = Body.epsilon

theorem exists_stack_nullableLayers (g : Grammar) : ∃ layers, g.nullableLayers = .ok layers ∧
    nullableLayer g.sortedEntries (.ofList (layered layers)) = [] ∧ (layered layers).Nodup ∧
    IsStack (nullableLayer g.sortedEntries) (epsilonLayer g.sortedEntries) layers := by
  obtain ⟨layers, he, h⟩ :=
    settled_layers "nullable set" (isLayering_nullableLayer g) (nodup_epsilonLayer g)
    (fun e he ↦ mem_of_mem_bodies (mem_epsilonLayer.1 he).1)
  exact ⟨layers, (nullableLayers_eq g).trans he, h⟩

theorem IsMarked.exists_nullableLayers (hg : g.IsMarked) :
    ∃ layers, g.nullableLayers = .ok layers ∧ (layered layers).Nodup ∧ ∀ v, v ∈ layered layers ↔
    g.Erases v := by
  obtain ⟨layers, he, hnil, hnodup, hstack⟩ := exists_stack_nullableLayers g
  refine ⟨layers, he, hnodup, fun v ↦ ⟨?_, fun hv ↦ ?_⟩⟩
  · refine hstack.induct (Q := g.Erases) ?_ ?_ v
    · exact fun e he ↦ erases_of_forall (mem_epsilonLayer.1 he).1 fun s hs ↦
        .inl (List.mem_singleton.1 hs)
    · intro known hknown e he
      obtain ⟨-, hb, -, hn⟩ := mem_nullableLayer he
      refine erases_of_forall hb fun s hs ↦ .inr ?_
      exact (Body.isNullable_iff.1 hn s hs).imp_right (hknown s)
  · refine hv.induct fun v b hb h ↦ ?_
    by_cases hbe : b = Body.epsilon
    · exact mem_layered.2 ⟨_, hstack.first_mem, (v, Body.epsilon),
        mem_epsilonLayer.2 ⟨hbe ▸ hb, rfl⟩, rfl⟩
    · by_contra hv
      have hn : b.isNullable (.ofList (layered layers)) = true := by
        refine Body.isNullable_iff.2 fun s hs ↦ ?_
        have hs' := (h s hs).resolve_left fun h ↦ hbe (hg v b hb (h ▸ hs))
        exact hs'.imp_right SymbolSet.mem_ofList.2
      obtain ⟨e, he, -⟩ :=
        exists_mem_nullableLayer (fun h ↦ hv (SymbolSet.mem_ofList.1 h)) hb hbe hn
      rw [hnil] at he
      exact List.not_mem_nil he

theorem IsLegal.isMarked (hg : g.IsLegal) : g.IsMarked := by
  intro v b hb he
  by_contra hne
  exact ((hg.body v b hb).isEpsilon_eq_false hne _ he).ne_epsilon rfl

theorem IsLegal.exists_nullableLayers (hg : g.IsLegal) :
    ∃ layers, g.nullableLayers = .ok layers ∧ ∀ v, v ∈ layered layers ↔ g.Derives v [] := by
  have ht : ∀ v, ∀ b ∈ g.bodies v, ∀ a, Symbol.terminal a ∈ b → a ≠ "" := by
    rintro v b hb a ha rfl
    have hl := (hg.body v b hb).isEpsilon_eq_false (by rintro rfl; simp at ha) _ ha
    exact hl.toList_ne_nil rfl
  obtain ⟨layers, he, -, hl⟩ := hg.isMarked.exists_nullableLayers
  exact ⟨layers, he, fun v ↦ (hl v).trans (erases_iff_derives_nil ht)⟩

end Grammar

end ChomskyNormalForm
