import ChomskyNormalForm.Form.EpsilonFree
import ChomskyNormalForm.Proofs.Language.Interpretation

namespace ChomskyNormalForm.Body

/-- `c` is left of `b` when some occurrences of variables in `N` are deleted. -/
inductive Drops (N : Symbol → Prop) : Body → Body → Prop
  | nil : Drops N [] []
  | keep (s : Symbol) {b c : Body} : Drops N b c → Drops N (s :: b) (s :: c)
  | drop {s : Symbol} {b c : Body} : s.isVar = true → N s → Drops N b c → Drops N (s :: b) c

variable {N : Symbol → Prop} {nullable : List Symbol} {s : Symbol} {b c : Body}
  {I J : Interpretation} {w : Word}

theorem Drops.refl (b : Body) : Drops N b b := by
  induction b with
  | nil => exact .nil
  | cons s b ih => exact .keep s ih

theorem Drops.sublist (h : Drops N b c) : c.Sublist b := by
  induction h with
  | nil => exact .slnil
  | keep s _ ih => exact ih.cons_cons s
  | drop _ _ _ ih => exact ih.cons _

theorem Drops.mono {M : Symbol → Prop} (h : Drops N b c) (hb : ∀ v ∈ vars b, N v → M v) :
    Drops M b c := by
  induction h with
  | nil => exact .nil
  | keep s _ ih => exact .keep s (ih fun v hv ↦ hb v (mem_vars_cons hv))
  | drop hs hn _ ih =>
    refine .drop hs (hb _ (mem_vars.2 ⟨List.mem_cons_self, hs⟩) hn)
      (ih fun v hv ↦ hb v (mem_vars_cons hv))

theorem Drops.length_le_countP (h : Drops (· ∈ nullable) b c) :
    b.length ≤ c.length + b.countP fun s ↦ s.isVar && s ∈ nullable := by
  induction h with
  | nil => simp
  | keep s _ ih =>
    rw [List.countP_cons, List.length_cons, List.length_cons]
    omega
  | @drop s b c hs hn _ ih =>
    have hp : (s.isVar && decide (s ∈ nullable)) = true := by simp [hs, hn]
    rw [List.countP_cons, if_pos hp, List.length_cons]
    omega

theorem length_of_mem_dropping {k : Nat} (h : c ∈ b.dropping nullable k) :
    Drops (· ∈ nullable) b c ∧ c.length + k = b.length := by
  induction b generalizing k c with
  | nil =>
    cases k with
    | zero =>
      rw [dropping, List.mem_singleton] at h
      subst h
      exact ⟨.nil, rfl⟩
    | succ k => simp [dropping] at h
  | cons s b ih =>
    cases k with
    | zero =>
      rw [dropping, List.mem_singleton] at h
      subst h
      exact ⟨.refl _, rfl⟩
    | succ k =>
      rw [dropping, List.mem_append, List.mem_map] at h
      rcases h with h | ⟨d, hd, rfl⟩
      · split at h
        · rename_i hs
          rw [Bool.and_eq_true, decide_eq_true_eq] at hs
          obtain ⟨hd, hl⟩ := ih h
          exact ⟨.drop hs.1 hs.2 hd, by rw [List.length_cons]; omega⟩
        · simp at h
      · obtain ⟨hd, hl⟩ := ih hd
        exact ⟨.keep s hd, by rw [List.length_cons, List.length_cons]; omega⟩

theorem Drops.mem_dropping (h : Drops (· ∈ nullable) b c) :
    c ∈ b.dropping nullable (b.length - c.length) := by
  induction h with
  | nil => simp [dropping]
  | @keep s b c hd ih =>
    have hle := hd.sublist.length_le
    rw [List.length_cons, List.length_cons, Nat.add_sub_add_right]
    cases hk : b.length - c.length with
    | zero =>
      rw [dropping, List.mem_singleton, hd.sublist.eq_of_length (by omega)]
    | succ k =>
      rw [hk] at ih
      rw [dropping]
      exact List.mem_append_right _ (List.mem_map_of_mem ih)
  | @drop s b c hs hn hd ih =>
    have hle := hd.sublist.length_le
    rw [List.length_cons, show b.length + 1 - c.length = b.length - c.length + 1 by omega, dropping,
      if_pos (by simp [hs, hn])]
    exact List.mem_append_left _ ih

theorem mem_variants : c ∈ b.variants nullable ↔
    c ≠ [] ∧ Drops (· ∈ nullable) b c ∧ c.length < b.length := by
  simp only [variants, mem_distinct, List.mem_filter, List.mem_flatMap, List.mem_range,
    decide_eq_true_eq]
  constructor
  · intro h
    obtain ⟨⟨k, -, hc⟩, hne⟩ := h
    obtain ⟨hd, hl⟩ := length_of_mem_dropping hc
    exact ⟨hne, hd, by omega⟩
  · intro h
    obtain ⟨hne, hd, hl⟩ := h
    have hle := hd.length_le_countP
    refine ⟨⟨b.length - c.length - 1, by omega, ?_⟩, hne⟩
    rw [show b.length - c.length - 1 + 1 = b.length - c.length by omega]
    exact hd.mem_dropping

theorem eq_or_mem_variants (hb : b ≠ []) :
    c = b ∨ c ∈ b.variants nullable ↔ c ≠ [] ∧ Drops (· ∈ nullable) b c := by
  rw [mem_variants]
  constructor
  · intro h
    rcases h with rfl | ⟨hne, hd, -⟩
    · exact ⟨hb, .refl _⟩
    · exact ⟨hne, hd⟩
  · intro h
    obtain ⟨hne, hd⟩ := h
    rcases Nat.lt_or_ge c.length b.length with hl | hl
    · exact .inr ⟨hne, hd, hl⟩
    · exact .inl (hd.sublist.eq_of_length_le hl)

theorem Drops.denotes (h : Drops N b c) (hn : ∀ s, N s → I s []) (hc : Body.Denotes I c w) :
    Body.Denotes I b w := by
  induction h generalizing w with
  | nil => exact hc
  | keep s _ ih =>
    obtain ⟨u, x, rfl, hu, hx⟩ := hc
    exact ⟨u, x, rfl, hu, ih hx⟩
  | drop hs hN _ ih => exact ⟨[], w, rfl, (Symbol.denotes_var hs).2 (hn _ hN), ih hc⟩

/-- A word of a body is one of what is left when the variables with an empty share are deleted. -/
theorem Denotes.exists_drops (hb : Body.Denotes I b w) (hn : ∀ s ∈ vars b, I s [] → N s) :
    ∃ c, Drops N b c ∧ Body.Denotes (fun s w ↦ I s w ∧ w ≠ []) c w := by
  induction b generalizing w with
  | nil => exact ⟨[], .nil, hb⟩
  | cons s b ih =>
    obtain ⟨u, x, rfl, hu, hx⟩ := hb
    obtain ⟨c, hd, hc⟩ := ih hx fun v hv ↦ hn v (mem_vars_cons hv)
    by_cases hs : s.isVar = true
    · have hus := (Symbol.denotes_var hs).1 hu
      by_cases hnil : u = []
      · subst hnil
        exact ⟨c, .drop hs (hn s (mem_vars.2 ⟨List.mem_cons_self, hs⟩) hus) hd, hc⟩
      · exact ⟨s :: c, .keep s hd, u, x, rfl, (Symbol.denotes_var hs).2 ⟨hus, hnil⟩, hc⟩
    · exact ⟨s :: c, .keep s hd, u, x, rfl, hu.mono fun h ↦ absurd h hs, hc⟩

end ChomskyNormalForm.Body
