import ChomskyNormalForm.Grammar.Basic
import ChomskyNormalForm.Proofs.Listing

namespace ChomskyNormalForm

namespace Rules

variable {κ : Type} {r : Rules κ} {k j : κ} {b : Body}

theorem ext_entries {s : Rules κ} (h : r.entries = s.entries) : r = s := by
  cases r
  cases s
  cases h
  rfl

variable [DecidableEq κ]

theorem mem_allBodies : b ∈ r.allBodies ↔ ∃ k, b ∈ r.bodies k := by
  rw [allBodies, List.mem_flatMap]
  constructor
  · intro h
    obtain ⟨e, he, hb⟩ := h
    exact ⟨e.1, bodies_of_mem_entries he ▸ hb⟩
  · intro h
    obtain ⟨k, hb⟩ := h
    exact ⟨(k, r.bodies k), mem_entries_of_mem (mem_of_mem_bodies hb), hb⟩

theorem mem_put {bs : List Body} (h : bs.Nodup) : j ∈ r.put k bs h ↔ j ∈ r ∨ j = k := by
  rw [mem_iff, keys_put]
  split
  · rename_i hk
    constructor
    · exact Or.inl
    · intro hx
      rcases hx with hj | rfl
      · exact hj
      · exact hk
  · simp [mem_iff]

theorem eq_or_mem_of_mem_exchange {old new : Body} {bs : List Body} (hb : b ∈ exchange old new bs) :
    b = new ∨ b ∈ bs ∧ b ≠ old := by
  unfold exchange at hb
  split at hb
  · rw [List.mem_filter, decide_eq_true_eq] at hb
    exact .inr hb
  · obtain ⟨c, hc, rfl⟩ := List.mem_map.1 hb
    split
    · exact .inl rfl
    · rename_i h
      exact .inr ⟨hc, h⟩

theorem mem_exchange {old new : Body} {bs : List Body} (hold : old ∈ bs) (hne : old ≠ new) :
    b ∈ exchange old new bs ↔ b = new ∨ b ∈ bs ∧ b ≠ old := by
  refine ⟨eq_or_mem_of_mem_exchange, fun hx ↦ ?_⟩
  unfold exchange
  split
  · rename_i hnew
    rw [List.mem_filter, decide_eq_true_eq]
    rcases hx with rfl | h
    · exact ⟨hnew, hne.symm⟩
    · exact h
  · rw [List.mem_map]
    rcases hx with rfl | ⟨hb, h⟩
    · exact ⟨old, hold, if_pos rfl⟩
    · exact ⟨b, hb, if_neg h⟩

theorem mem_foldl_extend {es : List (κ × List Body)} :
    k ∈ es.foldl (fun r e ↦ r.extend e.1 e.2) r ↔ k ∈ r ∨ ∃ e ∈ es, e.1 = k := by
  induction es generalizing r with
  | nil => simp
  | cons e es ih =>
    rw [List.foldl_cons, ih, extend, mem_put, or_assoc, eq_comm (a := k)]
    simp only [List.mem_cons, or_and_right, exists_or, exists_eq_left]

theorem mem_bodies_foldl_extend {es : List (κ × List Body)} :
    b ∈ (es.foldl (fun r e ↦ r.extend e.1 e.2) r).bodies k ↔ b ∈ r.bodies k ∨
    ∃ e ∈ es, e.1 = k ∧ b ∈ e.2 := by
  induction es generalizing r with
  | nil => simp
  | cons e es ih =>
    rw [List.foldl_cons, ih, mem_bodies_extend, or_assoc, eq_comm (a := k)]
    simp only [List.mem_cons, or_and_right, exists_or, exists_eq_left]

theorem mem_ofEntries {es : List (κ × List Body)} : k ∈ ofEntries es ↔ ∃ e ∈ es, e.1 = k := by
  rw [ofEntries, mem_foldl_extend]
  exact or_iff_right List.not_mem_nil

theorem mem_bodies_ofEntries {es : List (κ × List Body)} :
    b ∈ (ofEntries es).bodies k ↔ ∃ e ∈ es, e.1 = k ∧ b ∈ e.2 := by
  rw [ofEntries, mem_bodies_foldl_extend]
  exact or_iff_right List.not_mem_nil

end Rules

namespace Grammar

variable {g : Grammar} {u v : Symbol} {b c : Body} {bs : List Body}

theorem mem_of_mem_bodies (h : b ∈ g.bodies v) : v ∈ g := Rules.mem_of_mem_bodies h

@[simp] theorem mem_sortedHeads : v ∈ g.sortedHeads ↔ v ∈ g := mem_sortBy _

theorem mem_sortedEntries {e : Symbol × List Body} :
    e ∈ g.sortedEntries ↔ e.1 ∈ g ∧ g.bodies e.1 = e.2 := by
  rw [sortedEntries, mem_sortBy]
  constructor
  · exact fun h ↦ ⟨List.mem_map_of_mem h, Rules.bodies_of_mem_entries h⟩
  · intro hx
    obtain ⟨h, hb⟩ := hx
    obtain ⟨v, bs⟩ := e
    obtain rfl : g.bodies v = bs := hb
    exact Rules.mem_entries_of_mem h

@[simp] theorem mem_productions {p : Production} :
    p ∈ g.productions ↔ p.body ∈ g.bodies p.head := by
  simp only [productions, productionsOf, List.mem_flatMap, mem_sortedHeads, List.mem_map]
  constructor
  · rintro ⟨v, -, b, hb, rfl⟩
    exact hb
  · exact fun h ↦ ⟨p.head, mem_of_mem_bodies h, p.body, h, rfl⟩

theorem forall_mem_bodies {p : Symbol → Body → Prop} (h : ∀ v ∈ g.heads, ∀ b ∈ g.bodies v, p v b) :
    ∀ v, ∀ b ∈ g.bodies v, p v b :=
  fun v b hb ↦ h v (mem_of_mem_bodies hb) b hb

theorem bodies_of_not_mem (h : v ∉ g) : g.bodies v = [] := Rules.bodies_of_not_mem h

theorem bodies_eq_singleton (hb : ∀ d, d ∈ g.bodies v ↔ d = b) : g.bodies v = [b] := by
  have hperm : (g.bodies v).Perm [b] :=
    (List.perm_ext_iff_of_nodup (Rules.nodup_bodies _ v) (by simp)).2 fun d ↦
      (hb d).trans List.mem_singleton.symm
  exact List.perm_singleton.1 hperm

theorem mem_heads : v ∈ g.heads ↔ v ∈ g := .rfl

theorem mem_names (h : v ∈ g) : v.text ∈ g.names := List.mem_map_of_mem h

theorem nodup_heads (g : Grammar) : g.heads.Nodup := g.rules.keys_nodup

@[simp] theorem start_withStart : (g.withStart v).start = v := rfl

@[simp] theorem mem_withStart : u ∈ g.withStart v ↔ u ∈ g := .rfl

@[simp] theorem bodies_withStart : (g.withStart v).bodies u = g.bodies u := rfl

@[simp] theorem start_extend : (g.extend v bs).start = g.start := rfl

@[simp] theorem mem_extend : u ∈ g.extend v bs ↔ u ∈ g ∨ u = v := by
  rw [mem_iff, mem_iff, extend, Rules.extend, Rules.mem_put]

theorem mem_bodies_extend : b ∈ (g.extend v bs).bodies u ↔ b ∈ g.bodies u ∨ u = v ∧ b ∈ bs :=
  Rules.mem_bodies_extend

theorem mem_news : b ∈ g.news v bs ↔ b ∈ bs ∧ b ∉ g.bodies v := by
  simp [news, Rules.news, bodies]

@[simp] theorem start_restrict {p : Symbol → Bool} : (g.restrict p).start = g.start := rfl

@[simp] theorem mem_restrict {p : Symbol → Bool} : u ∈ g.restrict p ↔ u ∈ g ∧ p u = true :=
  Rules.mem_restrict

theorem mem_bodies_restrict {p : Symbol → Bool} :
    b ∈ (g.restrict p).bodies u ↔ b ∈ g.bodies u ∧ p u = true := by
  simp only [bodies, restrict, Rules.bodies_restrict]
  split <;> simp_all

@[simp] theorem start_filterBodies {p : Symbol → Body → Bool} :
    (g.filterBodies p).start = g.start := rfl

@[simp] theorem mem_filterBodies {p : Symbol → Body → Bool} : u ∈ g.filterBodies p ↔ u ∈ g := by
  simp [mem_iff, Rules.mem_iff, filterBodies]

theorem mem_bodies_filterBodies {p : Symbol → Body → Bool} :
    b ∈ (g.filterBodies p).bodies u ↔ b ∈ g.bodies u ∧ p u b = true := by
  simp [bodies, filterBodies, Rules.bodies_filterBodies]

@[simp] theorem mem_remove : u ∈ g.remove v b ↔ u ∈ g := by
  have h : (g.rules.remove v b).keys = g.rules.keys := by
    simp only [Rules.keys, Rules.remove, List.map_map]
    refine List.map_congr_left fun e _ ↦ ?_
    simp only [Function.comp_apply]
    split <;> rfl
  rw [mem_iff, mem_iff, Rules.mem_iff, Rules.mem_iff, remove, h]

theorem mem_bodies_remove : b ∈ (g.remove v c).bodies u ↔ b ∈ g.bodies u ∧ (u = v → b ≠ c) := by
  simp only [bodies, remove, Rules.bodies_remove]
  split
  · rename_i h
    subst h
    simp
  · rename_i h
    simp [h]

@[simp] theorem start_replace : (g.replace v b c).start = g.start := rfl

theorem mem_replace : u ∈ g.replace v b c ↔ u ∈ g ∨ u = v := by
  rw [mem_iff, mem_iff, replace, Rules.replace, Rules.mem_put]

theorem mem_replace_of_mem (h : v ∈ g) : u ∈ g.replace v b c ↔ u ∈ g := by
  rw [mem_replace, or_iff_left_iff_imp]
  exact fun he ↦ he ▸ h

theorem bodies_replace_of_ne (h : u ≠ v) : (g.replace v b c).bodies u = g.bodies u := by
  simp only [bodies, replace, Rules.replace, Rules.bodies_put, if_neg h]

theorem bodies_replace_of_not_mem (h : c ∉ g.bodies v) :
    (g.replace v b c).bodies v = (g.bodies v).map fun d ↦ if d = b then c else d := by
  simp only [bodies, replace, Rules.replace, Rules.bodies_put, if_true]
  exact if_neg h

theorem mem_bodies_replace {old new : Body} (hold : old ∈ g.bodies v) (hne : old ≠ new) :
    b ∈ (g.replace v old new).bodies v ↔ b = new ∨ b ∈ g.bodies v ∧ b ≠ old := by
  simp only [bodies, replace, Rules.replace, Rules.bodies_put, if_true]
  exact Rules.mem_exchange hold hne

theorem eq_or_mem_of_mem_replace {old new : Body} (hb : b ∈ (g.replace v old new).bodies u) :
    b = new ∨ b ∈ g.bodies u ∧ ¬(u = v ∧ b = old) := by
  by_cases hu : u = v
  · subst hu
    simp only [bodies, replace, Rules.replace, Rules.bodies_put, if_true] at hb
    exact (Rules.eq_or_mem_of_mem_exchange hb).imp_right fun h ↦ ⟨h.1, fun he ↦ h.2 he.2⟩
  · rw [bodies_replace_of_ne hu] at hb
    exact .inr ⟨hb, fun he ↦ hu he.1⟩

end Grammar

end ChomskyNormalForm
