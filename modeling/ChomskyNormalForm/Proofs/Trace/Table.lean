import ChomskyNormalForm.Proofs.Grammar.Entries
import ChomskyNormalForm.Trace.Table
import Mathlib.Data.List.Nodup

namespace ChomskyNormalForm

theorem Grammar.grammar_raw (g : Grammar) : g.raw.grammar = g :=
  congrArg (Grammar.mk g.start)
    (Rules.ext_entries (Rules.entries_ofEntries g.rules.keys_nodup g.rules.bodies_nodup))

namespace ProductionTable

/-- The table holds `g`, neither with a bad entry nor with an old one in what it keeps for later. -/
structure Holds (t : ProductionTable) (g : Grammar) : Prop where
  start_eq : t.start = g.start
  rules_eq : t.rules = g.rules.entries
  frozen_subset : t.frozen ⊆ t.rules
  snapshot_eq : ∀ s ∈ t.snapshot, s.grammar = ⟨t.start, t.rules⟩

def Updates (t : ProductionTable) (v : Symbol) (r : Bool × ProductionTable) : Prop :=
  r = (false, t) ∨ ∃ bs, bs.Nodup ∧ (v, bs) ∉ t.rules ∧ r = (true, t.put v bs)

variable {t u : ProductionTable} {g h : Grammar} {v : Symbol} {b c : Body} {bs cs : List Body}
  {r : Bool × ProductionTable}

theorem mem_rules_of_mem_bodies (hb : b ∈ t.bodies v) : (v, t.bodies v) ∈ t.rules :=
  Rules.mem_of_mem_lookup hb

theorem mem_heads_of_mem_bodies (hb : b ∈ t.bodies v) : v ∈ t.heads :=
  List.mem_map_of_mem (mem_rules_of_mem_bodies hb)

theorem Holds.heads_eq (hg : t.Holds g) : t.heads = g.heads := by
  rw [heads, hg.rules_eq]
  rfl

theorem Holds.sortedHeads_eq (hg : t.Holds g) : t.sortedHeads = g.sortedHeads :=
  congrArg Symbol.sort hg.heads_eq

theorem Holds.bodies_eq (hg : t.Holds g) : t.bodies v = g.bodies v := by
  rw [bodies, hg.rules_eq]
  rfl

theorem Holds.nodup_bodies (hg : t.Holds g) : (t.bodies v).Nodup :=
  hg.bodies_eq ▸ g.rules.nodup_bodies v

theorem Holds.raw_eq (hg : t.Holds g) : (⟨t.start, t.rules⟩ : RawGrammar) = g.raw := by
  rw [hg.start_eq, hg.rules_eq]
  rfl

/-- An entry may be exchanged for as long as nothing that is kept for later tells of it. -/
theorem Holds.touch {rules : List (Symbol × List Body)} (hg : t.Holds g) (hs : h.start = g.start)
    (hr : rules = h.rules.entries) (hkept : ∀ e ∈ t.rules, e.1 ≠ v → e ∈ rules) :
    ({ t with rules := rules }.touch v).Holds h where
  start_eq := hg.start_eq.trans hs.symm
  rules_eq := hr
  frozen_subset e he := by
    obtain ⟨he, hne⟩ := List.mem_filter.1 he
    exact hkept e (hg.frozen_subset he) (of_decide_eq_true hne)
  snapshot_eq _ hs := nomatch hs

theorem Holds.put (hg : t.Holds g) (hbs : bs.Nodup) :
    (t.put v bs).Holds ⟨g.start, g.rules.put v bs hbs⟩ := by
  refine hg.touch rfl ?_ fun e he hne ↦ Rules.mem_putEntry_of_ne he hne
  rw [hg.rules_eq]
  rfl

theorem Holds.setStart (hg : t.Holds g) : (t.setStart v).Holds (g.withStart v) where
  start_eq := rfl
  rules_eq := hg.rules_eq
  frozen_subset := hg.frozen_subset
  snapshot_eq _ hs := nomatch hs

theorem Holds.drop (hg : t.Holds g) : (t.drop v).2.Holds (g.restrict (· ≠ v)) := by
  refine hg.touch rfl ?_ fun e he hne ↦ List.mem_filter.2 ⟨he, decide_eq_true hne⟩
  rw [hg.rules_eq]
  rfl

theorem Holds.remove (hg : t.Holds g) (hb : b ∈ g.bodies v) :
    (t.remove v b).2.Holds (g.remove v b) := by
  have hmem : b ∈ t.bodies v := hg.bodies_eq ▸ hb
  have herase : (t.bodies v).erase b = (g.bodies v).filter (· ≠ b) := by
    rw [hg.nodup_bodies.erase_eq_filter, hg.bodies_eq]
    exact List.filter_congr fun c _ ↦ Bool.eq_iff_iff.2 (bne_iff_ne.trans decide_eq_true_iff.symm)
  rw [ProductionTable.remove, if_pos hmem, herase]
  refine hg.touch rfl ?_ fun e he hne ↦ Rules.mem_putEntry_of_ne he hne
  rw [hg.rules_eq]
  exact (Rules.entries_remove (Grammar.mem_of_mem_bodies hb)).symm

/-! ### What an edit tells -/

theorem put_put : (t.put v bs).put v cs = t.put v cs := by
  have hf : (t.frozen.filter (·.1 ≠ v)).filter (·.1 ≠ v) = t.frozen.filter (·.1 ≠ v) := by
    rw [List.filter_filter]
    exact List.filter_congr fun e _ ↦ Bool.and_self _
  simp only [put, ProductionTable.touch, Rules.putEntry_putEntry, hf]

theorem bodies_put : (t.put v bs).bodies v = bs := by
  rw [bodies, put, ProductionTable.touch, Rules.lookup_putEntry, if_pos rfl]
  rfl

theorem Holds.not_mem_rules (hg : t.Holds g) (hne : bs ≠ t.bodies v) : (v, bs) ∉ t.rules := by
  intro hm
  rw [hg.rules_eq] at hm
  exact hne ((Rules.bodies_of_mem_entries hm).symm.trans hg.bodies_eq.symm)

theorem updates_ensure : t.Updates v (t.ensure v) := by
  unfold ensure
  split
  · exact .inl rfl
  · rename_i hv
    exact .inr ⟨[], .nil, fun hm ↦ hv (List.mem_map_of_mem hm), rfl⟩

theorem add_of_not_mem (hb : b ∉ t.bodies v) : t.add v b = (true, t.put v (t.bodies v ++ [b])) := by
  by_cases hv : v ∈ t.heads
  · have hensure : t.ensure v = (false, t) := if_pos hv
    simp only [add, hensure, if_neg hb]
  · have hensure : t.ensure v = (true, t.put v []) := if_neg hv
    have hnone : t.bodies v = [] :=
      List.eq_nil_iff_forall_not_mem.2 fun c hc ↦ hv (mem_heads_of_mem_bodies hc)
    simp only [add, hensure, bodies_put, if_neg List.not_mem_nil, put_put, hnone]

theorem Holds.updates_add (hg : t.Holds g) : t.Updates v (t.add v b) := by
  by_cases hb : b ∈ t.bodies v
  · have hensure : t.ensure v = (false, t) := if_pos (mem_heads_of_mem_bodies hb)
    simp only [add, hensure, if_pos hb]
    exact .inl rfl
  · rw [add_of_not_mem hb]
    refine .inr ⟨_, List.nodup_append.2 ⟨hg.nodup_bodies, List.nodup_singleton b,
      fun c hc d hd ↦ ?_⟩, hg.not_mem_rules fun he ↦ ?_, rfl⟩
    · exact List.mem_singleton.1 hd ▸ ne_of_mem_of_not_mem hc hb
    · exact List.cons_ne_nil b [] (List.append_right_eq_self.1 he)

theorem Holds.updates_remove (hg : t.Holds g) : t.Updates v (t.remove v b) := by
  unfold ProductionTable.remove
  split
  · rename_i hb
    refine .inr ⟨_, hg.nodup_bodies.erase b, hg.not_mem_rules fun he ↦ ?_, rfl⟩
    have hlen := congrArg List.length he
    rw [List.length_erase_of_mem hb] at hlen
    have hpos := List.length_pos_of_mem hb
    omega
  · exact .inl rfl

theorem Holds.updates_replace (hg : t.Holds g) : t.Updates v (t.replace v b c) := by
  unfold replace
  dsimp only
  split
  · rename_i hb
    have hi : (t.bodies v).idxOf b < (t.bodies v).length := List.idxOf_lt_length_iff.2 hb.1
    refine .inr ⟨_, ?_, hg.not_mem_rules fun he ↦ ?_, rfl⟩
    · split
      · exact hg.nodup_bodies.sublist (List.eraseIdx_sublist ..)
      · rename_i hc
        exact List.Nodup.set hg.nodup_bodies hc
    · split at he
      · have hlen := congrArg List.length he
        rw [List.length_eraseIdx, if_pos hi] at hlen
        omega
      · rename_i hc
        exact hc (he ▸ List.mem_set hi c)
  · exact .inl rfl

theorem Updates.iff (h : t.Updates v r) : r.1 = true ↔ r.2.rules ≠ t.rules := by
  rcases h with rfl | ⟨bs, -, hbs, rfl⟩
  · exact iff_of_false nofun (fun h ↦ h rfl)
  · refine iff_of_true rfl fun h ↦ hbs ?_
    rw [← h]
    exact Rules.mem_putEntry_self v bs t.rules

theorem Updates.exists_holds (h : t.Updates v r) (hg : t.Holds g) : ∃ g', r.2.Holds g' := by
  rcases h with rfl | ⟨bs, hbs, -, rfl⟩
  · exact ⟨g, hg⟩
  · exact ⟨_, hg.put hbs⟩

theorem Updates.snapshot_eq (h : t.Updates v r) :
    r.2.snapshot = if r.1 then none else t.snapshot := by
  rcases h with rfl | ⟨bs, -, -, rfl⟩ <;> rfl

/-! ### Tables from rules and from grammars -/

theorem holds_edit (s : ℕ) (g : Grammar) : (edit ⟨s, g.raw⟩).Holds g where
  start_eq := rfl
  rules_eq := rfl
  frozen_subset := List.Subset.refl _
  snapshot_eq _ hs := Option.some.inj hs ▸ rfl

theorem new_induct {I : ProductionTable → Prop} {start : Symbol} {rules : List (Symbol × List Body)}
    (hensure : ∀ t v, I t → I (t.ensure v).2) (hadd : ∀ t v b, I t → I (t.add v b).2)
    (h : I ⟨start, [], [], none⟩) : I (new start rules) := by
  have hbodies : ∀ (v : Symbol) (bs : List Body) t, I t →
      I (bs.foldl (fun t b ↦ (t.add v b).2) t) := by
    intro v bs
    induction bs with
    | nil => exact fun _ h ↦ h
    | cons b bs ih => exact fun t h ↦ ih _ (hadd t v b h)
  have hrules : ∀ (rules : List (Symbol × List Body)) t, I t →
      I (rules.foldl (fun t e ↦ e.2.foldl (fun t b ↦ (t.add e.1 b).2) (t.ensure e.1).2) t) := by
    intro rules
    induction rules with
    | nil => exact fun _ h ↦ h
    | cons e rules ih => exact fun t h ↦ ih _ (hbodies e.1 e.2 _ (hensure t e.1 h))
  exact hrules rules _ h

theorem exists_holds_new (start : Symbol) (rules : List (Symbol × List Body)) :
    ∃ g, (new start rules).Holds g ∧ (new start rules).snapshot = none := by
  have step :
      ∀ (t : ProductionTable) (v : Symbol) (r : Bool × ProductionTable) (g : Grammar), t.Holds g →
      t.snapshot = none → t.Updates v r → ∃ g, r.2.Holds g ∧ r.2.snapshot = none := by
    intro t v r g hg hs hr
    obtain ⟨g', hg'⟩ := hr.exists_holds hg
    exact ⟨g', hg', by rw [hr.snapshot_eq, hs, ite_self]⟩
  refine new_induct (I := fun t ↦ ∃ g, t.Holds g ∧ t.snapshot = none) (fun t v h ↦ ?_)
    (fun t v b h ↦ ?_) ?_
  · obtain ⟨g, hg, hs⟩ := h
    exact step t v _ g hg hs updates_ensure
  · obtain ⟨g, hg, hs⟩ := h
    exact step t v _ g hg hs hg.updates_add
  · exact ⟨⟨start, .empty⟩, ⟨rfl, rfl, List.Subset.refl _, nofun⟩, rfl⟩

/-! ### Freezing -/

theorem subset_freeze {rules es f : List (Symbol × List Body)} (hes : es ⊆ rules) (hf : f ⊆ rules) :
    let kept := es.foldl (fun f e ↦ if e.1 ∈ f.map Prod.fst then f else Rules.putEntry e.1 e.2 f) f
    kept ⊆ rules ∧ ∀ v, v ∈ f.map Prod.fst ∨ v ∈ es.map Prod.fst → v ∈ kept.map Prod.fst := by
  -- what is kept grows by the entries that it lacks, and stays part of the rules
  induction es generalizing f with
  | nil => exact ⟨hf, fun v hv ↦ hv.resolve_right List.not_mem_nil⟩
  | cons e es ih =>
    obtain ⟨he, hes⟩ := List.cons_subset.1 hes
    rw [List.foldl_cons]
    split
    · rename_i hm
      refine ⟨(ih hes hf).1, fun v hv ↦ (ih hes hf).2 v ?_⟩
      rw [List.map_cons, List.mem_cons] at hv
      rcases hv with hv | rfl | hv
      · exact .inl hv
      · exact .inl hm
      · exact .inr hv
    · rename_i hm
      have hput : Rules.putEntry e.1 e.2 f ⊆ rules := by
        intro d hd
        rcases Rules.mem_putEntry hd with rfl | hd
        · exact he
        · exact hf hd
      have hkeys : (Rules.putEntry e.1 e.2 f).map Prod.fst = f.map Prod.fst ++ [e.1] := by
        rw [Rules.map_fst_putEntry, if_neg hm]
      refine ⟨(ih hes hput).1, fun v hv ↦ (ih hes hput).2 v ?_⟩
      rw [List.map_cons, List.mem_cons] at hv
      rw [hkeys, List.mem_append, List.mem_singleton, or_assoc]
      exact hv

theorem freeze_of_some {s : RawSnapshot} {n : ℕ} (h : t.snapshot = some s) :
    t.freeze n = (s, t, n) := by
  unfold freeze
  rw [h]

theorem Holds.freeze_of_none {n : ℕ} (hg : t.Holds g) (h : t.snapshot = none) :
    ∃ u, t.freeze n = (⟨n, g.raw⟩, u, n + 1) ∧ u.Holds g ∧ u.snapshot = some ⟨n, g.raw⟩ := by
  obtain ⟨kept, hfold⟩ : ∃ kept, kept = t.rules.foldl
    (fun f e ↦ if e.1 ∈ f.map Prod.fst then f else Rules.putEntry e.1 e.2 f) t.frozen := ⟨_, rfl⟩
  obtain ⟨hkept, hkeys⟩ := subset_freeze (List.Subset.refl t.rules) hg.frozen_subset
  rw [← hfold] at hkept hkeys
  -- with all variables in it, what is kept tells of each what the rules tell
  have hlook : (t.heads.map fun v ↦ (v, (kept.lookup v).getD [])) = g.rules.entries := by
    rw [Rules.entries_eq_map, hg.heads_eq]
    refine List.map_congr_left fun v hv ↦ ?_
    have hv : v ∈ t.heads := hg.heads_eq ▸ hv
    rw [Rules.lookup_of_subset (hg.rules_eq ▸ hkept) (hkeys v (.inr hv))]
    rfl
  have hraw : (⟨t.start, t.heads.map fun v ↦ (v, (kept.lookup v).getD [])⟩ : RawGrammar) =
      g.raw := by
    rw [hlook, hg.start_eq]
    rfl
  refine ⟨{ t with frozen := kept, snapshot := some ⟨n, g.raw⟩ }, ?_,
    ⟨hg.start_eq, hg.rules_eq, hkept, ?_⟩, rfl⟩
  · rw [← hraw, freeze, h, hfold]
  · exact fun s hs ↦ Option.some.inj hs ▸ hg.raw_eq.symm

/-- `s` is the last snapshot of `t`, or a new one with the number `n`. The table `u` that comes of
taking it has it, and `m` is the number of the next one. -/
structure Freezes (g : Grammar) (t : ProductionTable) (n : ℕ) (s : RawSnapshot)
    (u : ProductionTable) (m : ℕ) : Prop where
  grammar_eq : s.grammar = g.raw
  holds : u.Holds g
  snapshot_eq : u.snapshot = some s
  old_or_new : t.snapshot = some s ∧ m = n ∨ t.snapshot = none ∧ s.serial = n ∧ m = n + 1

theorem Freezes.shown_eq {s : RawSnapshot} {n m : ℕ} (h : t.Freezes g n s u m) :
    s.shown = ⟨s.serial, g⟩ := by
  rw [RawSnapshot.shown, h.grammar_eq, g.grammar_raw]

theorem Holds.freezes (hg : t.Holds g) (n : ℕ) :
    Freezes g t n (t.freeze n).1 (t.freeze n).2.1 (t.freeze n).2.2 := by
  cases hs : t.snapshot with
  | some s =>
    rw [freeze_of_some hs]
    exact ⟨(hg.snapshot_eq s hs).trans hg.raw_eq, hg, hs, .inl ⟨hs, rfl⟩⟩
  | none =>
    obtain ⟨u, hu, hg, hsnap⟩ := hg.freeze_of_none (n := n) hs
    rw [hu]
    exact ⟨rfl, hg, hsnap, .inr ⟨hs, rfl, rfl⟩⟩

end ProductionTable

end ChomskyNormalForm
