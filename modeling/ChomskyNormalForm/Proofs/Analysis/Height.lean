import ChomskyNormalForm.Form.Trimmed
import ChomskyNormalForm.Proofs.Analysis.Productive
import ChomskyNormalForm.Proofs.Listing
import Mathlib.Data.Nat.Find
import Mathlib.Order.Bounds.Basic

namespace ChomskyNormalForm

def Action.found : Nat → Symbol → List Body → Action
  | 0, v, bs => .productiveInit v bs
  | round + 1, v, bs => .productiveAdd (round + 1) v bs

theorem Symbol.text_lt_of_le {u v : Symbol} (hu : u.isVar = true) (hv : v.isVar = true)
    (hle : u.le v = true) (hne : u ≠ v) : u.text < v.text := by
  have hrank : compareOn rank u v = .eq := by
    cases u <;> cases v <;> simp_all [isVar, compareOn, rank]
  have hlt : compareOn text u v = .lt ↔ u.text < v.text := compareOfLessAndEq_eq_lt
  have hcompare : compare u v = compareOn text u v := by
    change (compareOn rank u v).then (compareOn text u v) = _
    rw [hrank]
    rfl
  rw [← hlt, ← hcompare]
  exact (Ordering.isLE_iff_eq_lt_or_eq_eq.1 hle).resolve_right fun h ↦
    hne (Std.LawfulEqCmp.eq_of_compare h)

namespace Grammar

variable {g : Grammar} {h k : Nat} {v : Symbol} {known : SymbolSet} {e : Symbol × List Body}
  {layers : List ProductiveLayer}

/-- A height of at most `h`: some body has no variable, or only variables of a height below. -/
def IsWithinHeight (g : Grammar) : Nat → Symbol → Prop
  | 0, v => ∃ b ∈ g.bodies v, Body.vars b = []
  | h + 1, v => ∃ b ∈ g.bodies v, ∀ u ∈ Body.vars b, g.IsWithinHeight h u

def HasHeight (g : Grammar) (h : Nat) (v : Symbol) : Prop := IsLeast {h | g.IsWithinHeight h v} h

open Classical in
noncomputable def bodiesBelow (g : Grammar) (h : Nat) (v : Symbol) : List Body :=
  (g.bodies v).filter fun b ↦ ∀ u ∈ Body.vars b, ∃ k < h, g.HasHeight k u

theorem IsWithinHeight.succ (hv : g.IsWithinHeight h v) : g.IsWithinHeight (h + 1) v := by
  induction h generalizing v with
  | zero =>
    obtain ⟨b, hb, hnil⟩ := hv
    exact ⟨b, hb, hnil ▸ nofun⟩
  | succ h ih =>
    obtain ⟨b, hb, hu⟩ := hv
    exact ⟨b, hb, fun u hm ↦ ih (hu u hm)⟩

theorem IsWithinHeight.mono (hv : g.IsWithinHeight h v) (hk : h ≤ k) : g.IsWithinHeight k v := by
  induction hk with
  | refl => exact hv
  | step _ ih => exact ih.succ

theorem isWithinHeight_iff : g.IsWithinHeight h v ↔ ∃ k ≤ h, g.HasHeight k v := by
  classical
  constructor
  · intro hv
    have hex : ∃ k, g.IsWithinHeight k v := ⟨h, hv⟩
    exact ⟨Nat.find hex, Nat.find_min' hex hv, Nat.find_spec hex, fun k hk ↦ Nat.find_min' hex hk⟩
  · intro ⟨k, hk, hv⟩
    exact hv.1.mono hk

theorem isWithinHeight_iff_bodiesBelow_ne_nil : g.IsWithinHeight h v ↔ g.bodiesBelow h v ≠ [] := by
  have hbelow : g.bodiesBelow h v ≠ [] ↔
      ∃ b ∈ g.bodies v, ∀ u ∈ Body.vars b, ∃ k < h, g.HasHeight k u := by
    simp [bodiesBelow]
  rw [hbelow]
  cases h with
  | zero => simp [IsWithinHeight, List.eq_nil_iff_forall_not_mem]
  | succ h => simp only [IsWithinHeight, isWithinHeight_iff, Nat.lt_succ_iff]

theorem hasHeight_iff : g.HasHeight h v ↔ g.IsWithinHeight h v ∧ ¬∃ k < h, g.HasHeight k v := by
  constructor
  · exact fun hv ↦ ⟨hv.1, fun ⟨k, hk, hkv⟩ ↦ absurd (hv.2 hkv.1) (Nat.not_le.2 hk)⟩
  · refine fun ⟨hv, hnone⟩ ↦ ⟨hv, fun k hk ↦ Nat.not_lt.1 fun hlt ↦ hnone ?_⟩
    obtain ⟨j, hj, hjv⟩ := isWithinHeight_iff.1 hk
    exact ⟨j, hj.trans_lt hlt, hjv⟩

theorem IsWithinHeight.isGrounded (hv : g.IsWithinHeight h v) : g.IsGrounded v := by
  induction h generalizing v with
  | zero =>
    obtain ⟨b, hb, hnil⟩ := hv
    exact .intro hb (hnil ▸ nofun)
  | succ h ih =>
    obtain ⟨b, hb, hu⟩ := hv
    exact .intro hb fun u hm ↦ ih (hu u hm)

/-- Upon the variables of smaller heights, a layer holds those of the next height. -/
theorem mem_productiveLayer_iff (hk : ∀ v, v ∈ known ↔ ∃ k < h, g.HasHeight k v) :
    e ∈ productiveLayer g.sortedEntries known ↔ g.HasHeight h e.1 ∧ e.2 = g.bodiesBelow h e.1 := by
  have hover : (g.bodies e.1).filter (Body.isOver known) = g.bodiesBelow h e.1 := by
    refine List.filter_congr fun b _ ↦ ?_
    rw [Bool.eq_iff_iff, Body.isOver_iff]
    simp only [hk, decide_eq_true_eq]
  rw [mem_productiveLayer, hover, hk, hasHeight_iff, isWithinHeight_iff_bodiesBelow_ne_nil]
  constructor
  · intro ⟨hnone, he, hne⟩
    exact ⟨⟨he ▸ hne, hnone⟩, he⟩
  · intro ⟨⟨hne, hnone⟩, he⟩
    exact ⟨hnone, he, he ▸ hne⟩

/-- Layer for layer the variables of one height, each with the bodies over variables of smaller
heights. -/
structure IsRanked (g : Grammar) (layers : List ProductiveLayer) : Prop where
  mem_layered : ∀ v, v ∈ layered layers ↔ ∃ k < layers.length, g.HasHeight k v
  mem : ∀ p ∈ layers.zipIdx, ∀ e, e ∈ p.1 ↔ g.HasHeight p.2 e.1 ∧ e.2 = g.bodiesBelow p.2 e.1
  sublist : ∀ l ∈ layers, (l.map Prod.fst).Sublist (g.sortedEntries.map Prod.fst)

theorem IsRanked.push (hr : g.IsRanked layers) {known : SymbolSet}
    (hk : ∀ v, v ∈ known ↔ v ∈ layered layers) :
    g.IsRanked (layers ++ [productiveLayer g.sortedEntries known]) := by
  have hlayer := fun e ↦ mem_productiveLayer_iff (e := e) fun v ↦ (hk v).trans (hr.mem_layered v)
  refine ⟨fun v ↦ ?_, ?_, ?_⟩
  · have hnew : v ∈ (productiveLayer g.sortedEntries known).map Prod.fst ↔
        g.HasHeight layers.length v := by
      simp [hlayer]
    rw [layered_append, List.mem_append, hr.mem_layered, hnew, List.length_append,
      List.length_singleton, Nat.exists_lt_succ_right]
  · rw [List.zipIdx_append, List.forall_mem_append, List.zipIdx_singleton,
      List.forall_mem_singleton]
    exact ⟨hr.mem, by simpa using hlayer⟩
  · rw [List.forall_mem_append, List.forall_mem_singleton]
    exact ⟨hr.sublist, map_fst_productiveLayer_sublist _ _⟩

theorem IsStack.isRanked
    (hs : IsStack (productiveLayer g.sortedEntries) (productiveLayer g.sortedEntries ∅) layers) :
    g.IsRanked layers := by
  induction hs with
  | single =>
    have hnone : g.IsRanked [] := ⟨by simp [layered], nofun, nofun⟩
    exact hnone.push (by simp [layered])
  | push _ ih => exact ih.push fun v ↦ SymbolSet.mem_ofList

def ranking (layers : List ProductiveLayer) : List (Symbol × Nat) :=
  layers.zipIdx.flatMap fun p ↦ p.1.map fun e ↦ (e.1, p.2)

theorem IsRanked.mem_ranking (hr : g.IsRanked layers)
    (hall : ∀ v, g.IsGrounded v → v ∈ layered layers) :
    (v, h) ∈ ranking layers ↔ g.HasHeight h v := by
  simp only [ranking, List.mem_flatMap, List.mem_map, Prod.mk.injEq]
  constructor
  · rintro ⟨p, hp, e, he, rfl, rfl⟩
    exact ((hr.mem p hp e).1 he).1
  · intro hv
    obtain ⟨k, hk, hkv⟩ := (hr.mem_layered v).1 (hall v hv.1.isGrounded)
    obtain rfl := hv.unique hkv
    have hp : (layers[h], h) ∈ layers.zipIdx :=
      List.mk_mem_zipIdx_iff_getElem?.2 (List.getElem?_eq_getElem hk)
    exact ⟨_, hp, (v, g.bodiesBelow h v), (hr.mem _ hp _).2 ⟨hv, rfl⟩, rfl, rfl⟩

theorem pairwise_text_sortedEntries (hv : ∀ v ∈ g, v.isVar = true) :
    (g.sortedEntries.map Prod.fst).Pairwise fun u v ↦ u.text < v.text := by
  have hvar : ∀ u ∈ g.sortedEntries.map Prod.fst, u.isVar = true := by
    intro u hu
    obtain ⟨e, he, rfl⟩ := List.mem_map.1 hu
    exact hv _ (mem_sortedEntries.1 he).1
  have hentries : g.sortedEntries.Pairwise fun d e ↦ d.1.le e.1 = true :=
    @pairwise_sortBy (Symbol × List Body) _ (fun d e ↦ Symbol.le_total d.1 e.1)
      (fun _ _ _ ↦ Symbol.le_trans) _
  have hsorted : (g.sortedEntries.map Prod.fst).Pairwise fun u v ↦ u.le v = true :=
    List.pairwise_map.2 hentries
  refine (hsorted.and nodup_map_fst_sortedEntries).imp_of_mem fun hu hw h ↦ ?_
  exact Symbol.text_lt_of_le (hvar _ hu) (hvar _ hw) h.1 h.2

theorem IsRanked.pairwise_ranking (hr : g.IsRanked layers) (hv : ∀ v ∈ g, v.isVar = true) :
    (ranking layers).Pairwise fun p q ↦ p.2 < q.2 ∨ p.2 = q.2 ∧ p.1.text < q.1.text := by
  have hnumbers : layers.zipIdx.Pairwise fun p q ↦ p.2 < q.2 := by
    rw [← List.pairwise_map, List.zipIdx_map_snd]
    exact List.pairwise_lt_range'
  rw [ranking, List.pairwise_flatMap]
  constructor
  · intro p hp
    have hlayer :=
      (pairwise_text_sortedEntries hv).sublist (hr.sublist p.1 (List.fst_mem_of_mem_zipIdx hp))
    rw [List.pairwise_map] at hlayer ⊢
    exact hlayer.imp fun h ↦ .inr ⟨rfl, h⟩
  · refine hnumbers.imp fun {p q} hlt r hr s hs ↦ ?_
    obtain ⟨-, -, rfl⟩ := List.mem_map.1 hr
    obtain ⟨-, -, rfl⟩ := List.mem_map.1 hs
    exact .inl hlt

theorem IsRanked.productiveActions_eq (hr : g.IsRanked layers) (hne : layers ≠ []) :
    productiveActions layers =
    (ranking layers).map (fun r ↦ (Action.found r.2 r.1 (g.bodiesBelow r.2 r.1), [r.1])) ++
      [(.productiveFixpoint layers.length, Symbol.sort (layered layers))] := by
  have hfound :
      (ranking layers).map (fun r ↦ (Action.found r.2 r.1 (g.bodiesBelow r.2 r.1), [r.1])) =
      layers.zipIdx.flatMap fun p ↦ p.1.map fun e ↦ (Action.found p.2 e.1 e.2, [e.1]) := by
    rw [ranking, List.map_flatMap]
    refine List.flatMap_congr fun p hp ↦ ?_
    rw [List.map_map]
    refine List.map_congr_left fun e he ↦ ?_
    rw [Function.comp_apply, ((hr.mem p hp e).1 he).2]
  obtain ⟨first, rest, rfl⟩ := List.exists_cons_of_ne_nil hne
  rw [hfound, productiveActions, List.zipIdx_cons, List.flatMap_cons]
  congr 2
  refine List.flatMap_congr fun p hp ↦ List.map_congr_left fun e _ ↦ ?_
  obtain ⟨n, hn⟩ := Nat.exists_eq_add_of_le (List.le_snd_of_mem_zipIdx hp)
  rw [hn, Nat.add_comm]
  rfl

end Grammar

end ChomskyNormalForm
