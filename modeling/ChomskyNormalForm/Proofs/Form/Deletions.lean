import ChomskyNormalForm.Proofs.Form.Variants
import Mathlib.Data.Finset.Preimage

/-!
The variants of a body by the positions that are deleted from it.
-/

namespace ChomskyNormalForm.Body

variable {N : Symbol → Prop} {nullable : List Symbol} {s : Symbol} {b c d : Body} {P : Finset ℕ}

/-- What is left of a body without the symbols at the positions in `P`. -/
def without (b : Body) (P : Finset ℕ) : Body := (b.zipIdx.filter (·.2 ∉ P)).map Prod.fst

def Deletable (nullable : List Symbol) (b : Body) (P : Finset ℕ) : Prop :=
  ∀ i ∈ P, ∃ v ∈ b[i]?, v.isVar = true ∧ v ∈ nullable

noncomputable def behind (P : Finset ℕ) : Finset ℕ := P.preimage Nat.succ Nat.succ_injective.injOn

theorem mem_behind {i : ℕ} : i ∈ behind P ↔ i + 1 ∈ P := Finset.mem_preimage

theorem without_cons (s : Symbol) (b : Body) (P : Finset ℕ) :
    without (s :: b) P = (if 0 ∈ P then [] else [s]) ++ without b (behind P) := by
  have hshift : b.zipIdx 1 = b.zipIdx.map fun e ↦ (e.1, e.2 + 1) := List.zipIdx_succ
  have htail : ((b.zipIdx 1).filter (·.2 ∉ P)).map Prod.fst = without b (behind P) := by
    rw [hshift, List.filter_map, List.map_map, without]
    simp only [mem_behind]
    rfl
  rw [without, List.zipIdx_cons, ← htail]
  split
  · rename_i h
    rw [List.filter_cons_of_neg (by simpa using h), List.nil_append]
  · rename_i h
    rw [List.filter_cons_of_pos (by simpa using h), List.map_cons, List.singleton_append]

theorem deletable_cons : Deletable nullable (s :: b) P ↔
    (0 ∈ P → s.isVar = true ∧ s ∈ nullable) ∧ Deletable nullable b (behind P) := by
  constructor
  · intro h
    refine ⟨fun h0 ↦ ?_, fun i hi ↦ h (i + 1) (mem_behind.1 hi)⟩
    obtain ⟨v, hv, hn⟩ := h 0 h0
    obtain rfl := Option.some.inj hv
    exact hn
  · rintro ⟨h0, h⟩ i hi
    cases i with
    | zero => exact ⟨s, rfl, h0 hi⟩
    | succ i => exact h i (mem_behind.2 hi)

theorem drops_without (h : Deletable nullable b P) : Drops (· ∈ nullable) b (without b P) := by
  induction b generalizing P with
  | nil => exact .nil
  | cons s b ih =>
    obtain ⟨h0, h⟩ := deletable_cons.1 h
    rw [without_cons]
    split
    · rename_i hm
      exact .drop (h0 hm).1 (h0 hm).2 (ih h)
    · exact .keep s (ih h)

theorem Drops.exists_without (h : Drops (· ∈ nullable) b c) :
    ∃ P, Deletable nullable b P ∧ c = without b P := by
  induction h with
  | nil => exact ⟨∅, fun i hi ↦ absurd hi (Finset.notMem_empty i), rfl⟩
  | @keep s b c _ ih =>
    obtain ⟨P, hP, rfl⟩ := ih
    have hbehind : behind (P.image Nat.succ) = P := by
      ext i
      simp [mem_behind]
    have h0 : 0 ∉ P.image Nat.succ := by simp
    refine ⟨P.image Nat.succ, deletable_cons.2 ⟨fun hm ↦ absurd hm h0, hbehind.symm ▸ hP⟩, ?_⟩
    rw [without_cons, if_neg h0, hbehind, List.singleton_append]
  | @drop s b c hs hn _ ih =>
    obtain ⟨P, hP, rfl⟩ := ih
    have hbehind : behind (insert 0 (P.image Nat.succ)) = P := by
      ext i
      simp [mem_behind]
    refine ⟨insert 0 (P.image Nat.succ), deletable_cons.2 ⟨fun _ ↦ ⟨hs, hn⟩, hbehind.symm ▸ hP⟩, ?_⟩
    rw [without_cons, if_pos (Finset.mem_insert_self _ _), hbehind, List.nil_append]

theorem without_empty (b : Body) : without b ∅ = b := by
  rw [without, List.filter_eq_self.2 (by simp)]
  exact List.zipIdx_map_fst 0 b

theorem length_without_lt_iff (h : Deletable nullable b P) : (without b P).length < b.length ↔
    P.Nonempty := by
  constructor
  · intro hl
    refine Finset.nonempty_iff_ne_empty.2 ?_
    rintro rfl
    rw [without_empty] at hl
    exact lt_irrefl _ hl
  · rintro ⟨i, hi⟩
    obtain ⟨v, hv, -⟩ := h i hi
    have hm : (v, i) ∈ b.zipIdx := List.mk_mem_zipIdx_iff_getElem?.2 hv
    have hlt : (b.zipIdx.filter (·.2 ∉ P)).length < b.zipIdx.length :=
      List.length_filter_lt_length_iff_exists.2 ⟨(v, i), hm, by simpa using hi⟩
    rwa [without, List.length_map, ← List.length_zipIdx (l := b) (i := 0)]

theorem Drops.trans (h : Drops N b c) (h' : Drops N c d) : Drops N b d := by
  induction h generalizing d with
  | nil => exact h'
  | keep s _ ih =>
    cases h' with
    | keep _ h' => exact .keep s (ih h')
    | drop hs hn h' => exact .drop hs hn (ih h')
  | drop hs hn _ ih => exact .drop hs hn (ih h')

theorem Drops.filter_eq (h : Drops (· ∈ nullable) b c) :
    c.filter (fun s ↦ !(s.isVar && s ∈ nullable)) = b.filter fun s ↦
    !(s.isVar && s ∈ nullable) := by
  induction h with
  | nil => rfl
  | keep s _ ih => rw [List.filter_cons, List.filter_cons, ih]
  | drop hs hn _ ih => rw [List.filter_cons_of_neg (by simp [hs, hn]), ih]

/-- The variants of a body are, each once, what the deletion of nullable variables at some positions
leaves of it, unless nothing is left. They are shorter, keep every other symbol in its place in the
row, and have no variants of their own that are not among them. -/
theorem variants_exact (nullable : List Symbol) (b : Body) : (b.variants nullable).Nodup ∧
    (∀ c, c ∈ b.variants nullable ↔ c ≠ [] ∧ ∃ P : Finset ℕ, P.Nonempty ∧
      (∀ i ∈ P, ∃ v ∈ b[i]?, v.isVar = true ∧ v ∈ nullable) ∧ c = b.without P) ∧
    ∀ c ∈ b.variants nullable, c.length < b.length ∧
      c.filter (fun s ↦ !(s.isVar && s ∈ nullable)) =
        b.filter (fun s ↦ !(s.isVar && s ∈ nullable)) ∧
      ∀ d ∈ c.variants nullable, d ∈ b.variants nullable := by
  refine ⟨nodup_distinct _, fun c ↦ ?_, fun c hc ↦ ?_⟩
  · rw [mem_variants]
    refine and_congr_right fun _ ↦ ?_
    constructor
    · rintro ⟨hd, hl⟩
      obtain ⟨P, hP, rfl⟩ := hd.exists_without
      exact ⟨P, (length_without_lt_iff hP).1 hl, hP, rfl⟩
    · rintro ⟨P, hne, hP, rfl⟩
      exact ⟨drops_without hP, (length_without_lt_iff hP).2 hne⟩
  · obtain ⟨-, hd, hl⟩ := mem_variants.1 hc
    refine ⟨hl, hd.filter_eq, fun d hdc ↦ ?_⟩
    obtain ⟨hne, hd', hl'⟩ := mem_variants.1 hdc
    exact mem_variants.2 ⟨hne, hd.trans hd', hl'.trans hl⟩

theorem variants_exact_doubled :
    let b : Body := [.var "A", .var "A", .terminal "a"]
    let c : Body := [.var "A", .terminal "a"]
    c ∈ b.variants [.var "A"] ∧ [.terminal "a"] ∈ c.variants [.var "A"] ∧
    [.terminal "a"] ∈ b.variants [.var "A"] := by
  intro b c
  have hc : c ∈ b.variants [.var "A"] := by decide
  have hd : [.terminal "a"] ∈ c.variants [.var "A"] := by decide
  exact ⟨hc, hd, ((variants_exact [.var "A"] b).2.2 c hc).2.2 _ hd⟩

end ChomskyNormalForm.Body
