import ChomskyNormalForm.Grammar.Notation
import ChomskyNormalForm.Proofs.Grammar.Legal
import ChomskyNormalForm.Proofs.Text.Pieces

namespace ChomskyNormalForm

namespace Text

def IsPlain (c : Char) : Prop := c.isAlphanum = true ∨ c = 'ε'

variable {c d : Char}

theorem le_iff_toNat_le : c ≤ d ↔ c.toNat ≤ d.toNat := by
  rw [Char.le_def, UInt32.le_iff_toNat_le, Char.toNat_val, Char.toNat_val]

theorem isUpper_iff : c.isUpper = true ↔ 'A' ≤ c ∧ c ≤ 'Z' := by
  delta Char.isUpper
  simp [Char.le_def]

theorem isLower_iff : c.isLower = true ↔ 'a' ≤ c ∧ c ≤ 'z' := by
  delta Char.isLower
  simp [Char.le_def]

theorem isDigit_iff : c.isDigit = true ↔ '0' ≤ c ∧ c ≤ '9' := by simp [Char.isDigit, Char.le_def]

theorem isAlphanum_iff : c.isAlphanum = true ↔ (c.isUpper = true ∨ c.isLower = true) ∨
    c.isDigit = true := by
  change (c.isUpper || c.isLower || c.isDigit) = true ↔ _
  rw [Bool.or_eq_true, Bool.or_eq_true]

theorem IsPlain.toNat (h : IsPlain c) : 65 ≤ c.toNat ∧ c.toNat ≤ 90 ∨ 97 ≤ c.toNat ∧ c.toNat ≤ 122 ∨
    48 ≤ c.toNat ∧ c.toNat ≤ 57 ∨ c.toNat = 949 := by
  rcases h with h | rfl
  · simp only [isAlphanum_iff, isUpper_iff, isLower_iff, isDigit_iff, le_iff_toNat_le,
      Char.reduceToNat] at h
    omega
  · exact .inr (.inr (.inr rfl))

theorem IsPlain.isBlank_eq_false (h : IsPlain c) : isBlank c = false := by
  have hc := h.toNat
  simp [isBlank, inRanges, blankRanges]
  omega

theorem IsPlain.isLineBreak_eq_false (h : IsPlain c) : isLineBreak c = false := by
  have hc := h.toNat
  simp [isLineBreak, inRanges]
  omega

theorem IsPlain.ne (h : IsPlain c) (hd : ¬IsPlain d) : c ≠ d := fun he ↦ hd (he ▸ h)

instance : DecidablePred IsPlain := fun _ ↦ inferInstanceAs (Decidable (_ ∨ _))

end Text

namespace Symbol

open Text

variable {s : Symbol} {a name : String} {c : Char}

theorem IsLegal.exists_singleton (h : (terminal a).IsLegal) :
    ∃ c, c.isLower = true ∧ a = .singleton c := by
  have hl : isTerminalText a.toList = true := h
  match ha : a.toList with
  | [] =>
    rw [ha] at hl
    exact nomatch hl
  | [c] =>
    rw [ha] at hl
    exact ⟨c, hl, String.toList_injective (ha.trans (String.toList_singleton c).symm)⟩
  | c :: d :: r =>
    rw [ha] at hl
    exact nomatch hl

theorem IsLegal.exists_toList_eq (h : (var name).IsLegal) :
    ∃ c ds, name.toList = c :: ds ∧ c.isUpper = true ∧ ∀ d ∈ ds, d.isDigit = true := by
  have hl : isVarName name.toList = true := h
  match hn : name.toList with
  | [] =>
    rw [hn] at hl
    exact nomatch hl
  | c :: ds =>
    rw [hn, isVarName, Bool.and_eq_true, List.all_eq_true] at hl
    exact ⟨c, ds, rfl, hl⟩

theorem IsLegal.isAlphanum (h : s.IsLegal) : ∀ c ∈ s.text.toList, c.isAlphanum = true := by
  cases s with
  | terminal a =>
    obtain ⟨c, hc, rfl⟩ := h.exists_singleton
    simp [text, Text.isAlphanum_iff, hc]
  | var name =>
    obtain ⟨c, ds, hn, hc, hd⟩ := h.exists_toList_eq
    rw [text, hn, List.forall_mem_cons]
    exact ⟨Text.isAlphanum_iff.2 (.inl (.inl hc)),
      fun d hm ↦ Text.isAlphanum_iff.2 (.inr (hd d hm))⟩
  | epsilon => exact h.elim
  | foreign t => exact h.elim

theorem IsLegal.text_ne_nil (h : s.IsLegal) : s.text.toList ≠ [] := by
  cases s with
  | terminal a => exact h.toList_ne_nil
  | var name =>
    obtain ⟨c, ds, hn, -, -⟩ := h.exists_toList_eq
    rw [text, hn]
    exact List.cons_ne_nil c ds
  | epsilon => exact h.elim
  | foreign t => exact h.elim

end Symbol

namespace Body

open Text

variable {s : Symbol} {b d before : Body} {name : String} {c : Char}

theorem push_of_isUpper (h : c.isUpper = true) :
    push before c = .ok (.var (.singleton c) :: before) :=
  if_pos h

theorem push_of_isLower (h : c.isLower = true) :
    push before c = .ok (.terminal (.singleton c) :: before) := by
  have hu : ¬c.isUpper = true := by
    simp only [isUpper_iff, isLower_iff, le_iff_toNat_le, Char.reduceToNat] at h ⊢
    omega
  unfold push
  rw [if_neg hu, if_pos h]

theorem push_of_isDigit (h : c.isDigit = true) :
    push (.var name :: before) c = .ok (.var (name.push c) :: before) := by
  have hu : ¬c.isUpper = true := by
    simp only [isUpper_iff, isDigit_iff, le_iff_toNat_le, Char.reduceToNat] at h ⊢
    omega
  have hl : ¬c.isLower = true := by
    simp only [isLower_iff, isDigit_iff, le_iff_toNat_le, Char.reduceToNat] at h ⊢
    omega
  rw [push, if_neg hu, if_neg hl]
  exact if_pos h

theorem foldlM_push_digits {ds : List Char} (h : ∀ d ∈ ds, d.isDigit = true) :
    ds.foldlM push (.var name :: before) = .ok (.var (name ++ .ofList ds) :: before) := by
  induction ds generalizing name with
  | nil =>
    rw [String.ofList_nil, String.append_empty]
    rfl
  | cons d ds ih =>
    rw [List.forall_mem_cons] at h
    rw [List.foldlM_cons, push_of_isDigit h.1, ok_bind, ih h.2]
    refine congrArg (fun n ↦ Except.ok (.var n :: before)) (String.toList_injective ?_)
    simp

theorem foldlM_push_text (h : s.IsLegal) :
    s.text.toList.foldlM push before = .ok (s :: before) := by
  cases s with
  | terminal a =>
    obtain ⟨c, hc, rfl⟩ := h.exists_singleton
    rw [Symbol.text, String.toList_singleton, List.foldlM_cons, push_of_isLower hc, ok_bind]
    rfl
  | var name =>
    -- the capital opens a variable, and the digits go on with its name
    obtain ⟨c, ds, hn, hc, hd⟩ := h.exists_toList_eq
    rw [Symbol.text, hn, List.foldlM_cons, push_of_isUpper hc, ok_bind, foldlM_push_digits hd]
    refine congrArg (fun n ↦ Except.ok (.var n :: before)) (String.toList_injective ?_)
    simp [hn]
  | epsilon => exact h.elim
  | foreign t => exact h.elim

theorem foldlM_push_chars (h : ∀ s ∈ b, s.IsLegal) :
    b.chars.foldlM push before = .ok (b.reverse ++ before) := by
  induction b generalizing before with
  | nil => rfl
  | cons s b ih =>
    rw [List.forall_mem_cons] at h
    have hc : chars (s :: b) = s.text.toList ++ chars b := rfl
    rw [hc, List.foldlM_append, foldlM_push_text h.1, ok_bind, ih h.2, List.reverse_cons,
      List.append_assoc]
    rfl

theorem scan_chars (h : ∀ s ∈ b, s.IsLegal) : scan b.chars = .ok b := by
  rw [scan, foldlM_push_chars h, List.append_nil, Except.map, List.reverse_reverse]

theorem chars_injective (hb : ∀ s ∈ b, s.IsLegal) (hd : ∀ s ∈ d, s.IsLegal)
    (h : b.chars = d.chars) : b = d := by
  have hs := scan_chars hb
  rw [h, scan_chars hd] at hs
  exact (Except.ok.inj hs).symm

theorem isAlphanum_of_mem_chars (h : ∀ s ∈ b, s.IsLegal) : ∀ c ∈ b.chars, c.isAlphanum = true := by
  intro c hc
  obtain ⟨s, hs, hc⟩ := List.mem_flatMap.1 hc
  exact (h s hs).isAlphanum c hc

theorem IsLegal.isPlain (h : b.IsLegal) : ∀ c ∈ b.chars, IsPlain c := by
  intro c hc
  rcases h with rfl | ⟨-, h⟩
  · exact .inr (List.mem_singleton.1 hc)
  · exact .inl (isAlphanum_of_mem_chars h c hc)

theorem IsLegal.chars_ne_nil (h : b.IsLegal) : b.chars ≠ [] := by
  rcases h with rfl | ⟨hne, h⟩
  · exact List.cons_ne_nil _ _
  · obtain ⟨s, b, rfl⟩ := List.exists_cons_of_ne_nil hne
    exact List.append_ne_nil_of_left_ne_nil (h s List.mem_cons_self).text_ne_nil _

abbrev eps : Body := [.terminal "e", .terminal "p", .terminal "s"]

/-- What a body becomes that is written and read. -/
def reread (b : Body) : Body := if b = eps then Body.epsilon else b

theorem eps_isLegal : ∀ s ∈ eps, s.IsLegal := by
  simp only [List.forall_mem_cons]
  exact ⟨rfl, rfl, rfl, fun _ h ↦ nomatch h⟩

theorem isMark_eq_false {c : Char} (h : c.isAlphanum = true) : isMark c = false := by
  rw [isMark, Bool.or_eq_false_iff, beq_eq_false_iff_ne, beq_eq_false_iff_ne]
  exact ⟨fun he ↦ absurd (he ▸ h) (by decide), fun he ↦ absurd (he ▸ h) (by decide)⟩

theorem filter_isMark_eq_self {cs : List Char} (h : ∀ c ∈ cs, c.isAlphanum = true) :
    cs.filter (!isMark ·) = cs :=
  List.filter_eq_self.2 fun c hc ↦ by rw [isMark_eq_false (h c hc), Bool.not_false]

/-- A text that holds a body and blanks is read as that body, unless it spells the empty word. -/
theorem read_of_compact_eq {s : String} (hb : b.IsLegal) (hs : compact s.toList = b.chars) :
    Body.read s = .ok b.reread := by
  rw [Body.read, hs]
  rcases hb with rfl | ⟨hne, h⟩
  · exact if_pos (.inr rfl)
  · have hkept : b.chars.filter (!isMark ·) = b.chars :=
      filter_isMark_eq_self (isAlphanum_of_mem_chars h)
    have hnil : b.chars ≠ [] := IsLegal.chars_ne_nil (.inr ⟨hne, h⟩)
    have heps : b.chars = ['e', 'p', 's'] ↔ b = eps := by
      constructor
      · exact fun hc ↦ chars_injective h eps_isLegal (hc.trans rfl)
      · rintro rfl
        rfl
    simp only [hkept, heps, hnil, or_false, scan_chars h, reread]
    split <;> rfl

end Body

end ChomskyNormalForm
