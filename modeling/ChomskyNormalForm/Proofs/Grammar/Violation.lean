import ChomskyNormalForm.Grammar.Legal
import ChomskyNormalForm.Proofs.Form.Binary

namespace ChomskyNormalForm.Grammar

inductive IsNormalBody (g : Grammar) (v : Symbol) : Body → Prop
  | epsilon : v = g.start → IsNormalBody g v Body.epsilon
  | terminal (a : String) : IsNormalBody g v [.terminal a]
  | pair {s t : Symbol} : s.isVar = true → t.isVar = true → s ≠ g.start → t ≠ g.start →
    IsNormalBody g v [s, t]

variable {g : Grammar} {v : Symbol} {b : Body}

theorem ofProduction?_eq_none : Violation.ofProduction? g.start ⟨v, b⟩ = none ↔
    g.IsNormalBody v b := by
  unfold Violation.ofProduction?
  constructor
  · intro h
    dsimp only at h
    split at h
    · split at h
      · exact .epsilon ‹_›
      · exact nomatch h
    · exact .terminal _
    · exact nomatch h
    · rename_i s t
      split at h
      · exact nomatch h
      · rename_i hvars
        split at h
        · exact nomatch h
        · rename_i hstart
          rw [Bool.not_eq_true', Bool.not_eq_false, Bool.and_eq_true] at hvars
          rw [List.mem_cons, List.mem_singleton, not_or] at hstart
          exact .pair hvars.1 hvars.2 (Ne.symm hstart.1) (Ne.symm hstart.2)
    · exact nomatch h
  · intro h
    cases h with
    | epsilon h => exact if_pos h
    | terminal a => rfl
    | @pair s t hs ht hss hts =>
      have hmem : g.start ∉ [s, t] := by
        rw [List.mem_cons, List.mem_singleton, not_or]
        exact ⟨Ne.symm hss, Ne.symm hts⟩
      simp only [hs, ht, Bool.and_self, Bool.not_true, Bool.false_eq_true, if_false, if_neg hmem]

theorem violations_eq_nil_iff :
    g.violations = [] ↔ (∀ v, ∀ b ∈ g.bodies v, g.IsNormalBody v b) ∧
    ∀ v u, g.Mentions v u → u ∈ g := by
  rw [violations, List.append_eq_nil_iff, List.filterMap_eq_nil_iff, List.map_eq_nil_iff]
  refine and_congr ⟨fun h v b hb ↦ ?_, fun h p hp ↦ ?_⟩ ⟨fun h v u hu ↦ ?_, fun h ↦ ?_⟩
  · exact ofProduction?_eq_none.1 (h ⟨v, b⟩ (mem_productions.2 hb))
  · exact ofProduction?_eq_none.2 (h p.head p.body (mem_productions.1 hp))
  · by_contra hg
    have hm := mem_dangling.2 ⟨⟨v, hu⟩, hg⟩
    rw [h] at hm
    exact List.not_mem_nil hm
  · refine List.eq_nil_iff_forall_not_mem.2 fun u hu ↦ ?_
    obtain ⟨⟨v, hm⟩, hg⟩ := mem_dangling.1 hu
    exact hg (h v u hm)

theorem IsBinary.isNormalBody (hg : g.IsBinary) (hb : b ∈ g.bodies v) : g.IsNormalBody v b := by
  have hle := hg.length_le v b hb
  have hlegal := hg.legal.body v b hb
  match b, hle with
  | [], _ => exact absurd rfl hlegal.ne_nil
  | [s], _ =>
    cases s with
    | terminal a => exact .terminal a
    | var name => exact absurd rfl (Body.isUnit_eq_false.1 (hg.isUnit v _ hb) _ rfl)
    | epsilon => exact .epsilon (hg.epsilon v hb)
    | foreign t =>
      exact absurd (hlegal.isEpsilon_eq_false (by simp) _ (List.mem_singleton_self _)) id
  | [s, t], _ =>
    have hvar := hg.isVar v _ hb (by simp)
    have hstart := hg.start_not_mem hb
    rw [List.mem_cons, List.mem_singleton, not_or] at hstart
    exact .pair (hvar s (by simp)) (hvar t (by simp)) (Ne.symm hstart.1) (Ne.symm hstart.2)

theorem IsBinary.violations_eq_nil (hg : g.IsBinary) : g.violations = [] :=
  violations_eq_nil_iff.2 ⟨fun _ _ ↦ hg.isNormalBody, hg.legal.closed⟩

/-- Legal grammars without violations or useless variables are those that normalization gives. -/
theorem IsLegal.isBinary (hg : g.IsLegal) (hv : g.violations = []) (hu : ∀ v ∈ g, g.IsUseful v) :
    g.IsBinary := by
  have hb := (violations_eq_nil_iff.1 hv).1
  constructor
  · constructor
    · constructor
      · refine ⟨hg, fun v ⟨b, hbv, hs⟩ ↦ ?_, fun v he ↦ ?_⟩
        · rw [Body.mem_vars] at hs
          cases hb v b hbv with
          | epsilon h =>
            rw [List.mem_singleton.1 hs.1] at hs
            exact nomatch hs.2
          | terminal a =>
            rw [List.mem_singleton.1 hs.1] at hs
            exact nomatch hs.2
          | pair _ _ hss hts =>
            rcases List.mem_cons.1 hs.1 with he | he
            · exact hss he.symm
            · exact hts (List.mem_singleton.1 he).symm
        · cases hb v _ he with
          | epsilon h => exact h
      · intro v b hbv
        cases hb v b hbv with
        | epsilon _ => rfl
        | terminal a => rfl
        | pair _ _ _ _ => exact Body.isUnit_eq_false.2 fun u _ he ↦ by cases he
      · exact hu
    · intro v b hbv hl s hs
      cases hb v b hbv with
      | epsilon _ => exact absurd hl (by decide)
      | terminal a => exact absurd hl (by simp)
      | pair hsv htv _ _ =>
        rcases List.mem_cons.1 hs with rfl | hs
        · exact hsv
        · rw [List.mem_singleton.1 hs]
          exact htv
  · intro v b hbv
    cases hb v b hbv with
    | epsilon _ => decide
    | terminal a => simp
    | pair _ _ _ _ => simp

end ChomskyNormalForm.Grammar
