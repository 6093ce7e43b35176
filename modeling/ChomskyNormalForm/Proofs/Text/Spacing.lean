import ChomskyNormalForm.Proofs.Text.Pieces
import Mathlib.Data.List.DropRight

namespace ChomskyNormalForm.Text

variable {c : Char} {a p r s ws : List Char}

def IsSpacing (ws : List Char) : Prop := ∀ c ∈ ws, isBlank c = true

theorem IsSpacing.dropWhile_eq_nil (h : IsSpacing ws) : ws.dropWhile isBlank = [] :=
  List.dropWhile_eq_nil_iff.2 h

theorem IsSpacing.compact_eq_nil (h : IsSpacing ws) : compact ws = [] :=
  List.filter_eq_nil_iff.2 fun c hc ↦ by rw [h c hc]; exact Bool.false_ne_true

theorem compact_compact (s : List Char) : compact (compact s) = compact s :=
  compact_eq_self fun _ hc ↦ by simpa using (List.mem_filter.1 hc).2

theorem compact_dropWhile (s : List Char) : compact (s.dropWhile isBlank) = compact s := by
  induction s with
  | nil => rfl
  | cons c s ih =>
    rw [List.dropWhile_cons]
    split
    · rename_i hc
      rw [ih, compact_cons_of_isBlank hc]
    · rfl

theorem compact_reverse (s : List Char) : compact s.reverse = (compact s).reverse :=
  List.filter_reverse

theorem compact_rdropWhile (s : List Char) : compact (s.rdropWhile isBlank) = compact s := by
  rw [List.rdropWhile, compact_reverse, compact_dropWhile, compact_reverse, List.reverse_reverse]

theorem trim_eq (s : List Char) : trim s = (s.dropWhile isBlank).rdropWhile isBlank := rfl

theorem compact_trim (s : List Char) : compact (trim s) = compact s := by
  rw [trim_eq, compact_rdropWhile, compact_dropWhile]

theorem IsSpacing.trim_append (h : IsSpacing ws) (s : List Char) : trim (ws ++ s) = trim s := by
  rw [trim_eq, trim_eq, List.dropWhile_append, if_pos]
  exact List.isEmpty_iff.2 h.dropWhile_eq_nil

theorem IsSpacing.append_trim (h : IsSpacing ws) (s : List Char) : trim (s ++ ws) = trim s := by
  induction ws using List.reverseRecOn with
  | nil => rw [List.append_nil]
  | append_singleton ws c ih =>
    rw [IsSpacing, List.forall_mem_append, List.forall_mem_singleton] at h
    rw [← List.append_assoc, trim_concat h.2, ih h.1]

theorem trim_trim (s : List Char) : trim (trim s) = trim s := by
  have hdrop : (trim s).dropWhile isBlank = trim s := by
    refine List.dropWhile_eq_self_iff.2 fun hl ↦ ?_
    have hp : trim s <+: s.dropWhile isBlank := List.rdropWhile_prefix _ _
    rw [hp.getElem hl]
    exact List.dropWhile_get_zero_not _ _ (hl.trans_le hp.length_le)
  rw [trim_eq (trim s), hdrop, trim_eq, List.rdropWhile_idempotent]

theorem IsSpacing.trim_eq_nil (h : IsSpacing ws) : trim ws = [] := by
  rw [trim_eq, h.dropWhile_eq_nil]
  rfl

theorem IsSpacing.hash_not_mem (h : IsSpacing ws) : '#' ∉ ws := fun hm ↦ absurd (h _ hm) (by decide)

theorem trim_append_append {m : List Char} (hm : m ≠ []) (h : ∀ c ∈ m, isBlank c = false) :
    trim (p ++ (m ++ r)) = p.dropWhile isBlank ++ (m ++ r.rdropWhile isBlank) := by
  have hdrop : ∀ n t : List Char, n ≠ [] → (∀ c ∈ n, isBlank c = false) →
      (n ++ t).dropWhile isBlank = n ++ t := by
    intro n t hn hb
    refine dropWhile_isBlank_eq_self fun c hc ↦ hb c (List.mem_of_mem_head? ?_)
    rwa [List.head?_append_of_ne_nil n hn] at hc
  have hleft : (p ++ (m ++ r)).dropWhile isBlank = p.dropWhile isBlank ++ (m ++ r) := by
    rw [List.dropWhile_append]
    split
    · rename_i hp
      rw [List.isEmpty_iff.1 hp, hdrop m r hm h, List.nil_append]
    · rfl
  have hright : ∀ q : List Char, (q ++ (m ++ r)).rdropWhile isBlank =
      q ++ (m ++ r.rdropWhile isBlank) := by
    intro q
    have hm' : m.reverse ≠ [] := fun he ↦ hm (List.reverse_eq_nil_iff.1 he)
    have h' : ∀ c ∈ m.reverse, isBlank c = false := fun c hc ↦ h c (List.mem_reverse.1 hc)
    rw [List.rdropWhile, List.rdropWhile, List.reverse_append, List.reverse_append,
      List.append_assoc, List.dropWhile_append]
    split
    · rename_i hr
      rw [List.isEmpty_iff.1 hr, hdrop _ _ hm' h']
      simp
    · simp
  rw [trim_eq, hleft, hright]

theorem map_compact_splitAll_eq (hc : isBlank c = false) (s : List Char) :
    (splitAll c s).map compact = splitAll c (compact s) := by
  induction s with
  | nil => rfl
  | cons d s ih =>
    obtain ⟨q, qs, hq⟩ := List.exists_cons_of_ne_nil (splitAll_ne_nil c s)
    rw [hq, List.map_cons] at ih
    rw [splitAll, hq]
    by_cases hd : isBlank d = true
    · have hne : d ≠ c := by
        rintro rfl
        exact Bool.false_ne_true (hc.symm.trans hd)
      rw [compact_cons_of_isBlank hd, ← ih]
      simp only [if_neg hne, List.map_cons, compact_cons_of_isBlank hd]
    · have hcons : ∀ t, compact (d :: t) = d :: compact t :=
        fun t ↦ List.filter_cons_of_pos (by simp [hd])
      rw [hcons, splitAll, ← ih]
      by_cases he : d = c
      · simp only [if_pos he, List.map_cons]
        rfl
      · simp only [if_neg he, List.map_cons, hcons]

theorem spellArrows_append (s t : List Char) :
    spellArrows (s ++ t) = spellArrows s ++ spellArrows t :=
  List.flatMap_append

theorem spellArrows_cons (d : Char) (s : List Char) :
    spellArrows (d :: s) = spellArrows [d] ++ spellArrows s :=
  spellArrows_append [d] s

theorem compact_spellArrows (s : List Char) :
    compact (spellArrows s) = spellArrows (compact s) := by
  induction s with
  | nil => rfl
  | cons d s ih =>
    have hd : compact (spellArrows [d]) = spellArrows (compact [d]) := by
      by_cases hd : '→' ∈ [d]
      · rw [List.mem_singleton] at hd
        subst hd
        decide
      · have hc : '→' ∉ compact [d] := fun hm ↦ hd (List.mem_of_mem_filter hm)
        rw [spellArrows_eq_self hd, spellArrows_eq_self hc]
    have hcompact : compact (d :: s) = compact [d] ++ compact s := compact_append [d] s
    rw [spellArrows_cons, compact_append, ih, hd, hcompact, spellArrows_append]

theorem withoutComment_append (h : '#' ∉ p) (r : List Char) :
    withoutComment (p ++ r) = p ++ withoutComment r :=
  List.takeWhile_append_of_pos fun _ hc ↦ decide_eq_true (ne_of_mem_of_not_mem hc h)

theorem withoutComment_append_of_mem (h : '#' ∈ p) (r : List Char) :
    withoutComment (p ++ r) = withoutComment p := by
  induction p with
  | nil => exact nomatch h
  | cons d p ih =>
    by_cases hd : d = '#'
    · subst hd
      rfl
    · have hp : '#' ∈ p := (List.mem_cons.1 h).resolve_left (Ne.symm hd)
      have hcons : ∀ t, withoutComment (d :: t) = d :: withoutComment t :=
        fun t ↦ List.takeWhile_cons_of_pos (decide_eq_true hd)
      rw [List.cons_append, hcons, hcons, ih hp]

inductive IsArrow : List Char → Prop
  | signs : IsArrow ['-', '>']
  | arrow : IsArrow ['→']

def IsArrowless (p : List Char) : Prop := ∀ a, IsArrow a → ¬a <:+: p

theorem IsArrowless.arrow_not_mem (h : IsArrowless p) : '→' ∉ p := by
  intro hm
  obtain ⟨s, t, rfl⟩ := List.append_of_mem hm
  exact h _ .arrow ⟨s, t, by rw [List.append_assoc, List.singleton_append]⟩

theorem IsArrow.spellArrows_eq (h : IsArrow a) : spellArrows a = ['-', '>'] := by
  cases h <;> rfl

theorem IsArrow.ne_nil (h : IsArrow a) : a ≠ [] := by
  cases h <;> exact List.cons_ne_nil _ _

theorem IsArrow.isBlank_eq_false (h : IsArrow a) : ∀ c ∈ a, isBlank c = false := by
  cases h with
  | signs => exact List.forall_mem_cons.2 ⟨rfl, List.forall_mem_singleton.2 rfl⟩
  | arrow => exact List.forall_mem_singleton.2 rfl

theorem IsArrow.hash_not_mem (h : IsArrow a) : '#' ∉ a := by
  cases h <;> decide

theorem IsArrowless.of_infix (h : IsArrowless p) (hs : s <:+: p) : IsArrowless s :=
  fun a ha hi ↦ h a ha (hi.trans hs)

theorem IsArrowless.append (h : IsArrowless p) (hw : IsSpacing ws) : IsArrowless (p ++ ws) := by
  intro a ha hi
  have hb : ∀ c ∈ a, c ∉ ws :=
    fun c hc hm ↦ Bool.false_ne_true ((ha.isBlank_eq_false c hc).symm.trans (hw c hm))
  rcases List.infix_append_iff.1 hi with hp | hs | ⟨l, m, rfl, hl, hm⟩
  · exact h a ha hp
  · obtain ⟨c, hc⟩ := List.exists_mem_of_ne_nil a ha.ne_nil
    exact hb c hc (hs.subset hc)
  · -- nothing of the arrow is blank, so all of it stands in `p`
    have hnil : m = [] := List.eq_nil_iff_forall_not_mem.2 fun c hc ↦
      hb c (List.mem_append_right l hc) (hm.subset hc)
    subst hnil
    rw [List.append_nil] at ha
    exact h l ha hl.isInfix

theorem IsArrowless.splitArrow?_append (h : IsArrowless p) (ha : IsArrow a) (r : List Char) :
    splitArrow? (spellArrows (p ++ (a ++ r))) = some (p, spellArrows r) := by
  rw [spellArrows_append, spellArrows_append, ha.spellArrows_eq,
    spellArrows_eq_self h.arrow_not_mem]
  exact Text.splitArrow?_append (h _ .signs)

end ChomskyNormalForm.Text
