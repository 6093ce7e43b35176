import ChomskyNormalForm.Analysis.Rounds
import ChomskyNormalForm.Proofs.Settling
import Mathlib.Data.List.Perm.Subperm

namespace ChomskyNormalForm.Grammar

variable {α : Type} {layers : List (List (Symbol × α))}

@[simp] theorem mem_layered {v : Symbol} : v ∈ layered layers ↔ ∃ l ∈ layers, ∃ e ∈ l, e.1 = v := by
  simp only [layered, List.mem_map, List.mem_flatten]
  constructor
  · intro h
    obtain ⟨e, ⟨l, hl, he⟩, rfl⟩ := h
    exact ⟨l, hl, e, he, rfl⟩
  · intro h
    obtain ⟨l, hl, e, he, rfl⟩ := h
    exact ⟨e, ⟨l, hl, he⟩, rfl⟩

theorem layered_append {l : List (Symbol × α)} :
    layered (layers ++ [l]) = layered layers ++ l.map Prod.fst := by
  simp [layered]

theorem layered_singleton {l : List (Symbol × α)} : layered [l] = l.map Prod.fst := by
  simp [layered]

def layerRound (layerOf : SymbolSet → List (Symbol × α)) (layers : List (List (Symbol × α))) :
    List (List (Symbol × α)) × Bool :=
  match layerOf (.ofList (layered layers)) with
  | [] => (layers, false)
  | layer => (layers ++ [layer], true)

structure IsLayering (layerOf : SymbolSet → List (Symbol × α)) (heads : List Symbol) : Prop where
  nodup : ∀ known, ((layerOf known).map Prod.fst).Nodup
  mem : ∀ known, ∀ e ∈ layerOf known, e.1 ∈ heads
  not_mem : ∀ known, ∀ e ∈ layerOf known, e.1 ∉ known

variable {layerOf : SymbolSet → List (Symbol × α)} {heads : List Symbol}

theorem layerRound_eq_true (h : (layerRound layerOf layers).2 = true) :
    layerOf (.ofList (layered layers)) ≠ [] ∧
      (layerRound layerOf layers).1 = layers ++ [layerOf (.ofList (layered layers))] := by
  unfold layerRound at h ⊢
  split
  · rename_i he
    simp [he] at h
  · rename_i hne
    exact ⟨hne, rfl⟩

theorem layerRound_eq_false (h : (layerRound layerOf layers).2 = false) :
    layerOf (.ofList (layered layers)) = [] ∧ (layerRound layerOf layers).1 = layers := by
  unfold layerRound at h ⊢
  split
  · rename_i he
    exact ⟨he, rfl⟩
  · rename_i hne
    split at h
    · rename_i he
      exact absurd he hne
    · simp at h

/-- The first layer with others upon it, each made from all that is found below. -/
inductive IsStack (layerOf : SymbolSet → List (Symbol × α)) (first : List (Symbol × α)) :
    List (List (Symbol × α)) → Prop
  | single : IsStack layerOf first [first]
  | push {layers : List (List (Symbol × α))} :
      IsStack layerOf first layers →
      IsStack layerOf first (layers ++ [layerOf (.ofList (layered layers))])

structure Layering (layerOf : SymbolSet → List (Symbol × α)) (heads : List Symbol)
    (first : List (Symbol × α)) (rounds : Nat) (layers : List (List (Symbol × α))) : Prop where
  nodup : (layered layers).Nodup
  mem : ∀ v ∈ layered layers, v ∈ heads
  count : rounds ≤ (layered layers).length
  stack : IsStack layerOf first layers

variable {first : List (Symbol × α)} {rounds : Nat}

theorem IsStack.first_mem (h : IsStack layerOf first layers) : first ∈ layers := by
  induction h with
  | single => exact List.mem_singleton_self _
  | push _ ih => exact List.mem_append_left _ ih

theorem forall_mem_layered_append {Q : Symbol → Prop} {l : List (Symbol × α)} :
    (∀ v ∈ layered (layers ++ [l]), Q v) ↔ (∀ v ∈ layered layers, Q v) ∧ ∀ e ∈ l, Q e.1 := by
  rw [layered_append, List.forall_mem_append, List.forall_mem_map]

theorem forall_mem_layered_singleton {Q : Symbol → Prop} {l : List (Symbol × α)} :
    (∀ v ∈ layered [l], Q v) ↔ ∀ e ∈ l, Q e.1 := by
  rw [layered_singleton, List.forall_mem_map]

theorem IsStack.induct {Q : Symbol → Prop} (h : IsStack layerOf first layers)
    (hfirst : ∀ e ∈ first, Q e.1) (hlayer : ∀ known : SymbolSet, (∀ v ∈ known, Q v) →
      ∀ e ∈ layerOf known, Q e.1) : ∀ v ∈ layered layers, Q v := by
  induction h with
  | single => exact forall_mem_layered_singleton.2 hfirst
  | push _ ih =>
    exact forall_mem_layered_append.2 ⟨ih, hlayer _ fun v hv ↦ ih v (SymbolSet.mem_ofList.1 hv)⟩

theorem Layering.start (hn : (first.map Prod.fst).Nodup) (hm : ∀ e ∈ first, e.1 ∈ heads) :
    Layering layerOf heads first 0 [first] where
  nodup := layered_singleton ▸ hn
  mem := forall_mem_layered_singleton.2 hm
  count := Nat.zero_le _
  stack := .single

theorem Layering.round (hp : Layering layerOf heads first rounds layers)
    (h : IsLayering layerOf heads) (hr : (layerRound layerOf layers).2 = true) :
    Layering layerOf heads first (rounds + 1) (layerRound layerOf layers).1 := by
  obtain ⟨hne, he⟩ := layerRound_eq_true hr
  rw [he]
  constructor
  case nodup =>
    rw [layered_append]
    refine List.nodup_append.2 ⟨hp.nodup, h.nodup _, ?_⟩
    intro v hv u hu huv
    obtain ⟨e, he, rfl⟩ := List.mem_map.1 hu
    exact h.not_mem _ e he (SymbolSet.mem_ofList.2 (huv ▸ hv))
  case mem => exact forall_mem_layered_append.2 ⟨hp.mem, h.mem _⟩
  case count =>
    have hpos := List.length_pos_iff.2 hne
    have hcount := hp.count
    rw [layered_append, List.length_append, List.length_map]
    omega
  case stack => exact .push hp.stack

/-- Layer upon layer leads to layers after which there is no further one. -/
theorem settled_layers (what : String) (h : IsLayering layerOf heads)
    (hn : (first.map Prod.fst).Nodup) (hm : ∀ e ∈ first, e.1 ∈ heads) :
    ∃ layers, settled what (heads.length + 1) (fun _ ↦ layerRound layerOf) [first] = .ok layers ∧
      layerOf (.ofList (layered layers)) = [] ∧ (layered layers).Nodup ∧
      IsStack layerOf first layers := by
  have bound : ∀ k layers, Layering layerOf heads first k layers → k < heads.length + 1 := by
    intro k layers hp
    have hle : (layered layers).length ≤ heads.length :=
      (List.subperm_of_subset hp.nodup hp.mem).length_le
    have hcount := hp.count
    omega
  obtain ⟨k, layers, hp, hr, he⟩ :=
    @settled_eq_ok _ (fun _ ↦ layerRound layerOf) (Layering layerOf heads first) what _
      (fun k layers hp hr ↦ hp.round h hr) bound _ (.start hn hm)
  obtain ⟨hnil, heq⟩ := layerRound_eq_false hr
  exact ⟨layers, by rw [he, heq], hnil, hp.nodup, hp.stack⟩

end ChomskyNormalForm.Grammar
