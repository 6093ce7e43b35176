import ChomskyNormalForm.Text.Basic
import Mathlib.Data.List.TakeWhile

namespace ChomskyNormalForm.Text

variable {c : Char} {l p r s : List Char} {ls : List (List Char)}

theorem splitAll_of_not_mem (h : c ∉ p) : splitAll c p = [p] := by
  induction p with
  | nil => rfl
  | cons d p ih =>
    rw [List.mem_cons, not_or] at h
    rw [splitAll, ih h.2]
    exact if_neg (Ne.symm h.1)

theorem splitAll_ne_nil (c : Char) (s : List Char) : splitAll c s ≠ [] := by
  cases s with
  | nil => exact List.cons_ne_nil _ _
  | cons d s =>
    rw [splitAll]
    split
    · exact List.cons_ne_nil _ _
    · split <;> exact List.cons_ne_nil _ _

theorem splitAll_append_cons (c : Char) (s t : List Char) :
    splitAll c (s ++ c :: t) = splitAll c s ++ splitAll c t := by
  induction s with
  | nil =>
    obtain ⟨q, qs, hq⟩ := List.exists_cons_of_ne_nil (splitAll_ne_nil c t)
    have hnil : splitAll c [] = [[]] := rfl
    rw [List.nil_append, hnil, splitAll, hq]
    exact if_pos rfl
  | cons d s ih =>
    obtain ⟨q, qs, hq⟩ := List.exists_cons_of_ne_nil (splitAll_ne_nil c s)
    rw [List.cons_append, splitAll, splitAll, ih, hq]
    simp only [List.cons_append]
    split <;> rfl

theorem splitAll_append (h : c ∉ p) : splitAll c (p ++ c :: r) = p :: splitAll c r := by
  rw [splitAll_append_cons, splitAll_of_not_mem h, List.singleton_append]

theorem splitArrow?_append (h : ¬['-', '>'] <:+: p) :
    splitArrow? (p ++ '-' :: '>' :: r) = some (p, r) := by
  induction p with
  | nil => rfl
  | cons d p ih =>
    rw [List.infix_cons_iff, not_or] at h
    rw [List.cons_append, splitArrow?, ih h.2]
    · rfl
    · rintro q rfl hq
      cases p with
      | nil => exact absurd (List.cons.inj hq).1 (by decide)
      | cons e p =>
        obtain rfl : e = '>' := (List.cons.inj hq).1
        exact h.1 ⟨p, rfl⟩

theorem spellArrows_eq_self (h : '→' ∉ s) : spellArrows s = s := by
  induction s with
  | nil => rfl
  | cons d s ih =>
    rw [List.mem_cons, not_or] at h
    have hs : spellArrows (d :: s) = (if d = '→' then ['-', '>'] else [d]) ++ spellArrows s := rfl
    rw [hs, if_neg (Ne.symm h.1), ih h.2, List.singleton_append]

theorem withoutComment_eq_self (h : '#' ∉ s) : withoutComment s = s :=
  List.takeWhile_eq_self_iff.2 fun _ hc ↦ decide_eq_true fun he ↦ h (he ▸ hc)

theorem dropWhile_isBlank_eq_self (h : ∀ c ∈ s.head?, isBlank c = false) :
    s.dropWhile isBlank = s := by
  cases s with
  | nil => rfl
  | cons d s => rw [List.dropWhile_cons_of_neg (by rw [h d rfl]; exact Bool.false_ne_true)]

theorem trim_eq_self (hh : ∀ c ∈ s.head?, isBlank c = false)
    (hl : ∀ c ∈ s.getLast?, isBlank c = false) :
    trim s = s := by
  rw [← List.head?_reverse] at hl
  rw [trim, trimBy, dropWhile_isBlank_eq_self hh, dropWhile_isBlank_eq_self hl,
    List.reverse_reverse]

theorem trim_concat (hc : isBlank c = true) : trim (s ++ [c]) = trim s := by
  rw [trim, trimBy, List.dropWhile_append]
  split
  · rename_i h
    rw [List.isEmpty_iff] at h
    simp [trim, trimBy, h, hc]
  · rw [List.reverse_concat, List.dropWhile_cons_of_pos hc, trim, trimBy]

theorem compact_eq_self (h : ∀ c ∈ s, isBlank c = false) : compact s = s :=
  List.filter_eq_self.2 fun c hc ↦ by rw [h c hc, Bool.not_false]

theorem compact_append (s t : List Char) : compact (s ++ t) = compact s ++ compact t :=
  List.filter_append s t

theorem compact_cons_of_isBlank (hc : isBlank c = true) : compact (c :: s) = compact s :=
  List.filter_cons_of_neg (by rw [hc]; exact Bool.false_ne_true)

theorem compact_concat_of_isBlank (hc : isBlank c = true) : compact (s ++ [c]) = compact s := by
  have hnil : compact [c] = [] := compact_cons_of_isBlank hc
  rw [compact_append, hnil, List.append_nil]

theorem isLineBreak_cr : isLineBreak '\r' = true := by decide

theorem lines_cons (hc : isLineBreak c = false) :
    lines (c :: s) = match lines s with
      | [] => [[c]]
      | l :: ls => (c :: l) :: ls := by
  rw [lines, hc]
  · rfl
  · rintro r rfl
    exact absurd (isLineBreak_cr.symm.trans hc) nofun

theorem lines_append (h : ∀ c ∈ l, isLineBreak c = false) :
    lines (l ++ '\n' :: s) = l :: lines s := by
  induction l with
  | nil => rw [List.nil_append, lines, if_pos (by decide)]; exact nofun
  | cons c l ih =>
    rw [List.forall_mem_cons] at h
    rw [List.cons_append, lines_cons h.1, ih h.2]

theorem lines_of_ne_nil (hl : l ≠ []) (h : ∀ c ∈ l, isLineBreak c = false) : lines l = [l] := by
  induction l with
  | nil => exact absurd rfl hl
  | cons c l ih =>
    rw [List.forall_mem_cons] at h
    rw [lines_cons h.1]
    cases l with
    | nil => rfl
    | cons d l => rw [ih (List.cons_ne_nil d l) h.2]

theorem mem_or_mem_of_mem_intercalate (h : c ∈ s.intercalate ls) : c ∈ s ∨ ∃ l ∈ ls, c ∈ l := by
  induction ls with
  | nil => exact nomatch h
  | cons l ls ih =>
    cases ls with
    | nil =>
      rw [List.intercalate_singleton] at h
      exact .inr ⟨l, List.mem_cons_self, h⟩
    | cons k ls =>
      rw [List.intercalate_cons_cons, List.mem_append, List.mem_append] at h
      rcases h with (h | h) | h
      · exact .inr ⟨l, List.mem_cons_self, h⟩
      · exact .inl h
      · exact (ih h).imp_right fun ⟨j, hj, hc⟩ ↦ ⟨j, List.mem_cons_of_mem l hj, hc⟩

theorem exists_getLast?_intercalate (hls : ls ≠ []) (h : ∀ l ∈ ls, l ≠ []) :
    ∃ l ∈ ls, l ≠ [] ∧ (s.intercalate ls).getLast? = l.getLast? := by
  induction ls with
  | nil => exact absurd rfl hls
  | cons l ls ih =>
    rw [List.forall_mem_cons] at h
    cases ls with
    | nil => exact ⟨l, List.mem_cons_self, h.1, by rw [List.intercalate_singleton]⟩
    | cons k ls =>
      obtain ⟨j, hj, hne, hlast⟩ := ih (List.cons_ne_nil k ls) h.2
      refine ⟨j, List.mem_cons_of_mem l hj, hne, ?_⟩
      rw [List.intercalate_cons_cons, List.getLast?_append, hlast,
        Option.or_of_isSome (List.getLast?_isSome.2 hne)]

theorem lines_intercalate (h : ∀ l ∈ ls, l ≠ [] ∧ ∀ c ∈ l, isLineBreak c = false) :
    lines (['\n'].intercalate ls) = ls := by
  induction ls with
  | nil => rfl
  | cons l ls ih =>
    rw [List.forall_mem_cons] at h
    cases ls with
    | nil => rw [List.intercalate_singleton, lines_of_ne_nil h.1.1 h.1.2]
    | cons k ls =>
      rw [List.intercalate_cons_cons, List.append_assoc, List.singleton_append,
        lines_append h.1.2, ih h.2]

theorem map_compact_splitAll {a b : Char} (ha : isBlank a = true ∧ a ≠ c)
    (hb : isBlank b = true ∧ b ≠ c) (hls : ls ≠ []) (h : ∀ l ∈ ls, c ∉ l) :
    (splitAll c (b :: [a, c, b].intercalate ls)).map compact = ls.map compact := by
  induction ls with
  | nil => exact absurd rfl hls
  | cons l ls ih =>
    rw [List.forall_mem_cons] at h
    have hbl : c ∉ b :: l := fun hm ↦ (List.mem_cons.1 hm).elim (fun he ↦ hb.2 he.symm) h.1
    cases ls with
    | nil =>
      rw [List.intercalate_singleton, splitAll_of_not_mem hbl, List.map_singleton,
        compact_cons_of_isBlank hb.1, List.map_singleton]
    | cons k ls =>
      have hbla : c ∉ b :: (l ++ [a]) := by
        rw [← List.cons_append, List.mem_append, List.mem_singleton, not_or]
        exact ⟨hbl, fun he ↦ ha.2 he.symm⟩
      have hla : compact (b :: (l ++ [a])) = compact l := by
        rw [compact_cons_of_isBlank hb.1, compact_concat_of_isBlank ha.1]
      have hsplit : b :: [a, c, b].intercalate (l :: k :: ls) =
          (b :: (l ++ [a])) ++ c :: b :: [a, c, b].intercalate (k :: ls) := by
        simp [List.intercalate_cons_cons]
      rw [hsplit, splitAll_append hbla, List.map_cons, ih (List.cons_ne_nil k ls) h.2, hla]
      rfl

end ChomskyNormalForm.Text
