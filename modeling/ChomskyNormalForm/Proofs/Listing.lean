import ChomskyNormalForm.Listing
import ChomskyNormalForm.Symbol
import Mathlib.Data.List.Sort

namespace ChomskyNormalForm

section

variable {α : Type} (le : α → α → Bool) {a : α} {l : List α} {p : α → Bool}

theorem insertSorted_eq_orderedInsert :
    insertSorted le a l = l.orderedInsert (le · · = true) a := by
  induction l with
  | nil => rfl
  | cons b l ih => rw [insertSorted, List.orderedInsert_cons, ih]

theorem sortBy_eq_insertionSort (l : List α) : sortBy le l = l.insertionSort (le · · = true) := by
  induction l with
  | nil => rfl
  | cons a l ih => rw [List.insertionSort_cons, ← ih, ← insertSorted_eq_orderedInsert]; rfl

theorem sortBy_perm (l : List α) : (sortBy le l).Perm l := by
  rw [sortBy_eq_insertionSort]
  exact List.perm_insertionSort _ _

@[simp] theorem mem_sortBy : a ∈ sortBy le l ↔ a ∈ l := (sortBy_perm le l).mem_iff

theorem nodup_sortBy : (sortBy le l).Nodup ↔ l.Nodup := (sortBy_perm le l).nodup_iff

variable {le}

theorem pairwise_sortBy (htotal : ∀ a b, le a b = true ∨ le b a = true)
    (htrans : ∀ a b c, le a b = true → le b c = true → le a c = true) (l : List α) :
    (sortBy le l).Pairwise (le · · = true) := by
  have : Std.Total (le · · = true) := ⟨htotal⟩
  have : IsTrans α (le · · = true) := ⟨htrans⟩
  rw [sortBy_eq_insertionSort]
  exact List.pairwise_insertionSort _ l

/-- Elements that may stand in any order stay as they stood. -/
theorem filter_sortBy (hp : ∀ a b, p a = true → p b = true → le a b = true) (l : List α) :
    (sortBy le l).filter p = l.filter p := by
  have hpairwise : (l.filter p).Pairwise (le · · = true) :=
    List.pairwise_of_forall_mem_list fun a ha b hb ↦
    hp a b (List.mem_filter.1 ha).2 (List.mem_filter.1 hb).2
  have hsub : (l.filter p).Sublist (sortBy le l) := by
    rw [sortBy_eq_insertionSort]
    exact List.sublist_insertionSort hpairwise List.filter_sublist
  have hfilter : (l.filter p).Sublist ((sortBy le l).filter p) := by simpa using hsub.filter p
  exact (hfilter.eq_of_length ((sortBy_perm le l).filter p).length_eq.symm).symm

end

variable {α : Type} {l m : List α}

namespace Symbol

variable {r s t : Symbol}

theorem le_refl (s : Symbol) : s.le s = true := by
  rw [le, Std.ReflOrd.compare_self]
  rfl

theorem le_total (s t : Symbol) : s.le t = true ∨ t.le s = true := by
  unfold le
  rw [Std.OrientedOrd.eq_swap (a := t) (b := s)]
  cases compare s t <;> decide

theorem le_trans (h : r.le s = true) (h' : s.le t = true) : r.le t = true :=
  Std.TransCmp.isLE_trans h h'

theorem le_antisymm (h : s.le t = true) (h' : t.le s = true) : s = t :=
  Std.LawfulEqCmp.eq_of_compare (Std.OrientedCmp.isLE_antisymm h h')

end Symbol

variable {key : α → Symbol}

theorem eq_of_filter_key (hl : l.Pairwise fun a b ↦ (key a).le (key b) = true)
    (hm : m.Pairwise fun a b ↦ (key a).le (key b) = true)
    (h : ∀ k, (l.filter fun a ↦ key a = k) = m.filter fun a ↦ key a = k) : l = m := by
  have hmem : ∀ a, a ∈ l ↔ a ∈ m := by
    intro a
    have hk := congrArg (a ∈ ·) (h (key a))
    simpa using hk
  induction l generalizing m with
  | nil => exact (List.eq_nil_iff_forall_not_mem.2 fun a ha ↦ List.not_mem_nil ((hmem a).2 ha)).symm
  | cons a l ih =>
    cases m with
    | nil => exact absurd ((hmem a).1 List.mem_cons_self) List.not_mem_nil
    | cons b m =>
      rw [List.pairwise_cons] at hl hm
      have hab : (key a).le (key b) = true := by
        rcases List.mem_cons.1 ((hmem b).2 List.mem_cons_self) with he | hb
        · exact he ▸ Symbol.le_refl _
        · exact hl.1 b hb
      have hba : (key b).le (key a) = true := by
        rcases List.mem_cons.1 ((hmem a).1 List.mem_cons_self) with he | ha
        · exact he ▸ Symbol.le_refl _
        · exact hm.1 a ha
      have hkey := Symbol.le_antisymm hab hba
      have hhead := h (key a)
      rw [List.filter_cons, List.filter_cons, if_pos (decide_eq_true rfl),
        if_pos (decide_eq_true hkey.symm)] at hhead
      obtain rfl := (List.cons.inj hhead).1
      have htail : ∀ k, (l.filter fun a ↦ key a = k) = m.filter fun a ↦ key a = k := by
        intro k
        have hk := h k
        rw [List.filter_cons, List.filter_cons] at hk
        split at hk
        · exact (List.cons.inj hk).2
        · exact hk
      refine congrArg (a :: ·) (ih hl.2 hm.2 htail fun c ↦ ?_)
      have hk := congrArg (c ∈ ·) (htail (key c))
      simpa using hk

/-- What is sorted by a key only depends on the elements for each key. -/
theorem sortBy_congr (h : ∀ k, (l.filter fun a ↦ key a = k) = m.filter fun a ↦ key a = k) :
    sortBy (fun a b ↦ (key a).le (key b)) l = sortBy (fun a b ↦ (key a).le (key b)) m := by
  have hsorted := @pairwise_sortBy α (fun a b ↦ (key a).le (key b)) (fun a b ↦ Symbol.le_total _ _)
    fun a b c ↦ Symbol.le_trans
  refine eq_of_filter_key (hsorted l) (hsorted m) fun k ↦ ?_
  rw [filter_sortBy, filter_sortBy, h]
  all_goals
    intro a b ha hb
    rw [of_decide_eq_true ha, of_decide_eq_true hb]
    exact Symbol.le_refl k

namespace Symbol

theorem sort_congr {ss ts : List Symbol} (h : ss.Perm ts) : sort ss = sort ts := by
  have hf : ∀ (l : List Symbol) (k : Symbol), (l.filter fun s ↦ id s = k) =
      List.replicate (l.count k) k := by
    intro l k
    rw [← List.filter_beq]
    rfl
  have hk : ∀ k, (ss.filter fun s ↦ id s = k) = ts.filter fun s ↦ id s = k := by
    intro k
    rw [hf, hf, h.count_eq]
  exact sortBy_congr hk

theorem sort_distinct_congr {ss ts : List Symbol} (h : ∀ s, s ∈ ss ↔ s ∈ ts) :
    sort (distinct ss) = sort (distinct ts) := by
  refine sort_congr
    ((List.perm_ext_iff_of_nodup (nodup_distinct _) (nodup_distinct _)).2 fun s ↦ ?_)
  rw [mem_distinct, mem_distinct, h]

end Symbol

end ChomskyNormalForm
