import Std.Data.TreeSet.Lemmas

namespace ChomskyNormalForm

section

variable {α : Type} (le : α → α → Bool)

def insertSorted (a : α) : List α → List α
  | [] => [a]
  | b :: l => if le a b then a :: b :: l else b :: insertSorted a l

/-- The elements in ascending order; equal ones stay as they stood. -/
def sortBy (l : List α) : List α := l.foldr (insertSorted le) []

end

variable {α : Type} [Ord α]

def distinctFrom (seen : Std.TreeSet α) : List α → List α
  | [] => []
  | a :: l => if a ∈ seen then distinctFrom seen l else a :: distinctFrom (seen.insert a) l

def distinct (l : List α) : List α := distinctFrom ∅ l

variable [Std.TransOrd α] [Std.LawfulEqOrd α] {seen seen' : Std.TreeSet α} {a : α} {l m : List α}

theorem mem_insert_iff {b : α} : a ∈ seen.insert b ↔ a = b ∨ a ∈ seen := by
  rw [Std.TreeSet.mem_insert, Std.LawfulEqCmp.compare_eq_iff_eq, eq_comm]

theorem mem_distinctFrom : a ∈ distinctFrom seen l ↔ a ∈ l ∧ a ∉ seen := by
  induction l generalizing seen with
  | nil => simp [distinctFrom]
  | cons b l ih =>
    unfold distinctFrom
    split
    · rename_i hb
      rw [ih, List.mem_cons]
      constructor
      · exact fun h ↦ ⟨.inr h.1, h.2⟩
      · intro hx
        obtain ⟨rfl | h, hs⟩ := hx
        · exact absurd hb hs
        · exact ⟨h, hs⟩
    · rename_i hb
      by_cases h : a = b
      · simp [h, hb]
      · rw [List.mem_cons, List.mem_cons, ih, mem_insert_iff]
        simp [h]

theorem nodup_distinctFrom : (distinctFrom seen l).Nodup := by
  induction l generalizing seen with
  | nil => exact .nil
  | cons b l ih =>
    unfold distinctFrom
    split
    · exact ih
    · exact List.nodup_cons.2 ⟨by simp [mem_distinctFrom], ih⟩

@[simp] theorem mem_distinct : a ∈ distinct l ↔ a ∈ l := by
  simp [distinct, mem_distinctFrom]

theorem nodup_distinct (l : List α) : (distinct l).Nodup := nodup_distinctFrom

theorem distinctFrom_eq_self (hl : l.Nodup) (hs : ∀ a ∈ l, a ∉ seen) : distinctFrom seen l = l := by
  induction l generalizing seen with
  | nil => rfl
  | cons b l ih =>
    obtain ⟨hb, hl⟩ := List.nodup_cons.1 hl
    rw [distinctFrom, if_neg (hs b List.mem_cons_self), ih hl]
    intro a ha
    rw [mem_insert_iff]
    intro hx
    rcases hx with rfl | h
    · exact hb ha
    · exact hs a (List.mem_cons_of_mem _ ha) h

theorem distinct_eq_self (h : l.Nodup) : distinct l = l := distinctFrom_eq_self h (by simp)

theorem distinctFrom_congr (h : ∀ a, a ∈ seen ↔ a ∈ seen') :
    distinctFrom seen l = distinctFrom seen' l := by
  induction l generalizing seen seen' with
  | nil => rfl
  | cons b l ih =>
    have hinsert : ∀ a, a ∈ seen.insert b ↔ a ∈ seen'.insert b :=
      fun a ↦ by rw [mem_insert_iff, mem_insert_iff, h]
    rw [distinctFrom, distinctFrom, ih h, ih hinsert]
    simp only [h]

theorem distinctFrom_insert [DecidableEq α] :
    distinctFrom (seen.insert a) l = (distinctFrom seen l).filter (· ≠ a) := by
  induction l generalizing seen with
  | nil => rfl
  | cons b l ih =>
    rw [distinctFrom, distinctFrom]
    by_cases hb : b ∈ seen
    · rw [if_pos hb, if_pos (mem_insert_iff.2 (.inr hb)), ih]
    · rw [if_neg hb]
      by_cases he : b = a
      · subst he
        rw [if_pos (mem_insert_iff.2 (.inl rfl)), List.filter_cons_of_neg (by simp)]
        refine (List.filter_eq_self.2 fun c hc ↦ decide_eq_true ?_).symm
        rintro rfl
        exact (mem_distinctFrom.1 hc).2 (mem_insert_iff.2 (.inl rfl))
      · have hab : b ∉ seen.insert a := fun hm ↦ (mem_insert_iff.1 hm).elim he hb
        have hswap : ∀ c, c ∈ (seen.insert a).insert b ↔ c ∈ (seen.insert b).insert a := fun c ↦ by
          simp only [mem_insert_iff, or_left_comm]
        rw [if_neg hab, List.filter_cons_of_pos (by simpa using he), distinctFrom_congr hswap, ih]

theorem distinct_cons [DecidableEq α] : distinct (a :: l) = a :: (distinct l).filter (· ≠ a) := by
  rw [distinct, distinctFrom, if_neg (by simp), distinctFrom_insert]
  rfl

theorem distinctFrom_append [DecidableEq α] :
    distinctFrom seen (l ++ m) = distinctFrom seen l ++ (distinctFrom seen m).filter (· ∉ l) := by
  induction l generalizing seen with
  | nil => exact (List.filter_eq_self.2 fun _ _ ↦ decide_eq_true List.not_mem_nil).symm
  | cons b l ih =>
    rw [List.cons_append, distinctFrom, distinctFrom]
    by_cases hb : b ∈ seen
    · rw [if_pos hb, if_pos hb, ih]
      refine congrArg (distinctFrom seen l ++ ·) (List.filter_congr fun c hc ↦ ?_)
      have hne : c ≠ b := fun he ↦ (mem_distinctFrom.1 hc).2 (he ▸ hb)
      simp [hne]
    · have hm : distinctFrom (seen.insert b) m = (distinctFrom seen m).filter (· ≠ b) :=
        distinctFrom_insert
      rw [if_neg hb, if_neg hb, ih, hm, List.filter_filter, List.cons_append]
      refine congrArg (fun k ↦ b :: (distinctFrom (seen.insert b) l ++ k))
        (List.filter_congr fun c _ ↦ ?_)
      simp [Bool.and_comm]

theorem distinct_append [DecidableEq α] (l m : List α) :
    distinct (l ++ m) = distinct l ++ (distinct m).filter (· ∉ l) := distinctFrom_append

end ChomskyNormalForm
