import ChomskyNormalForm.Form.UnitFree
import ChomskyNormalForm.Proofs.Language.Interpretation

namespace ChomskyNormalForm.Body

variable {v u s : Symbol} {rs : List Body} {b c : Body} {I : Interpretation} {w : Word}

@[simp] theorem mem_substitutions_nil : c ∈ substitutions v rs [] ↔ c = [] := List.mem_singleton

theorem mem_substitutions_cons : c ∈ substitutions v rs (s :: b) ↔
    ∃ r d, (s = v ∧ r ∈ rs ∨ s ≠ v ∧ r = [s]) ∧ d ∈ substitutions v rs b ∧ c = r ++ d := by
  have hslot : ∀ r, r ∈ (if s = v then rs else [[s]]) ↔ s = v ∧ r ∈ rs ∨ s ≠ v ∧ r = [s] := by
    intro r
    by_cases hs : s = v
    · simp [hs]
    · simp [hs]
  simp only [substitutions, List.mem_flatMap, List.mem_map, hslot, @eq_comm _ c]
  constructor
  · rintro ⟨r, hr, d, hd, hc⟩
    exact ⟨r, d, hr, hd, hc⟩
  · rintro ⟨r, d, hr, hd, hc⟩
    exact ⟨r, hr, d, hd, hc⟩

theorem mem_of_mem_substitutions (hc : c ∈ b.substitutions v rs) (hu : u ∈ c) :
    u ∈ b ∧ u ≠ v ∨ ∃ r ∈ rs, u ∈ r := by
  induction b generalizing c with
  | nil =>
    rw [mem_substitutions_nil.1 hc] at hu
    exact absurd hu List.not_mem_nil
  | cons s b ih =>
    obtain ⟨r, d, hr, hd, rfl⟩ := mem_substitutions_cons.1 hc
    rcases List.mem_append.1 hu with hu | hu
    · rcases hr with ⟨-, hr⟩ | ⟨hs, rfl⟩
      · exact .inr ⟨r, hr, hu⟩
      · rw [List.mem_singleton.1 hu]
        exact .inl ⟨List.mem_cons_self, hs⟩
    · exact (ih hd hu).imp_left fun h ↦ ⟨List.mem_cons_of_mem _ h.1, h.2⟩

theorem not_mem_of_mem_substitutions (hr : ∀ r ∈ rs, v ∉ r) (hc : c ∈ b.substitutions v rs) :
    v ∉ c := by
  intro hv
  rcases mem_of_mem_substitutions hc hv with ⟨-, hne⟩ | ⟨r, hrs, hvr⟩
  · exact hne rfl
  · exact hr r hrs hvr

theorem mem_substitutions_of_not_mem (hv : v ∉ b) : c ∈ b.substitutions v rs ↔ c = b := by
  induction b generalizing c with
  | nil => exact mem_substitutions_nil
  | cons s b ih =>
    rw [List.mem_cons, not_or] at hv
    rw [mem_substitutions_cons]
    simp [ih hv.2, Ne.symm hv.1]

theorem mem_substitutions_congr {ts : List Body} (h : ∀ r, r ∈ rs ↔ r ∈ ts) :
    c ∈ b.substitutions v rs ↔ c ∈ b.substitutions v ts := by
  induction b generalizing c with
  | nil => exact .rfl
  | cons s b ih => simp only [mem_substitutions_cons, h, ih]

theorem length_le_of_mem_substitutions (hr : ∀ r ∈ rs, r ≠ []) (hc : c ∈ b.substitutions v rs) :
    b.length ≤ c.length := by
  induction b generalizing c with
  | nil => exact Nat.zero_le _
  | cons s b ih =>
    obtain ⟨r, d, hslot, hd, rfl⟩ := mem_substitutions_cons.1 hc
    have hpos : 0 < r.length := by
      rcases hslot with ⟨-, hrs⟩ | ⟨-, rfl⟩
      · exact List.length_pos_iff.2 (hr r hrs)
      · exact Nat.one_pos
    have hle := ih hd
    rw [List.length_cons, List.length_append]
    omega

theorem denotes_of_mem_substitutions (hv : v.isVar = true)
    (hr : ∀ r ∈ rs, ∀ w, Body.Denotes I r w → I v w) (hc : c ∈ b.substitutions v rs)
    (hw : Body.Denotes I c w) : Body.Denotes I b w := by
  induction b generalizing c w with
  | nil => rwa [mem_substitutions_nil.1 hc] at hw
  | cons s b ih =>
    obtain ⟨r, d, hslot, hd, rfl⟩ := mem_substitutions_cons.1 hc
    obtain ⟨y, x, rfl, hy, hx⟩ := denotes_append.1 hw
    refine ⟨y, x, rfl, ?_, ih hd hx⟩
    rcases hslot with ⟨rfl, hrs⟩ | ⟨-, rfl⟩
    · exact (Symbol.denotes_var hv).2 (hr r hrs y hy)
    · exact denotes_singleton.1 hy

/-- Where each word of `v` is one of a replacement, each word of a body is one of a substitution: a
replacement is chosen for every occurrence by the share of the word that the occurrence has. -/
theorem Denotes.exists_mem_substitutions (hv : v.isVar = true)
    (hr : ∀ w, I v w → ∃ r ∈ rs, Body.Denotes I r w) (hw : Body.Denotes I b w) :
    ∃ c ∈ b.substitutions v rs, Body.Denotes I c w := by
  induction b generalizing w with
  | nil => exact ⟨[], mem_substitutions_nil.2 rfl, hw⟩
  | cons s b ih =>
    obtain ⟨y, x, rfl, hy, hx⟩ := hw
    obtain ⟨d, hd, hdx⟩ := ih hx
    by_cases hs : s = v
    · subst hs
      obtain ⟨r, hrs, hry⟩ := hr y ((Symbol.denotes_var hv).1 hy)
      have hc : r ++ d ∈ substitutions s rs (s :: b) :=
        mem_substitutions_cons.2 ⟨r, d, .inl ⟨rfl, hrs⟩, hd, rfl⟩
      exact ⟨r ++ d, hc, denotes_append.2 ⟨y, x, rfl, hry, hdx⟩⟩
    · have hc : s :: d ∈ substitutions v rs (s :: b) :=
        mem_substitutions_cons.2 ⟨[s], d, .inr ⟨hs, rfl⟩, hd, rfl⟩
      exact ⟨s :: d, hc, y, x, rfl, hy, hdx⟩

end ChomskyNormalForm.Body
