import ChomskyNormalForm.Allocator
import ChomskyNormalForm.Listing
import ChomskyNormalForm.Symbol
import Mathlib.Data.List.Nodup
import Mathlib.Data.List.Perm.Subperm

namespace ChomskyNormalForm

variable {letter name : String} {names more : List String} {taken : NameSet} {a b c : Allocator}

theorem numbered_injective (letter : String) : Function.Injective (numbered letter) := by
  intro i j h
  have hl : letter.toList ++ Nat.toDigits 10 i = letter.toList ++ Nat.toDigits 10 j := by
    simpa [numbered] using congrArg String.toList h
  have hd : Nat.toDigits 10 i = Nat.toDigits 10 j := List.append_cancel_left hl
  have hn := congrArg (fun ds ↦ Nat.ofDigitChars 10 ds 0) hd
  simpa using hn

theorem isVarName_numbered {u : Char} (hl : letter.toList = [u]) (hu : u.isUpper = true) (i : Nat) :
    Symbol.isVarName (numbered letter i).toList = true := by
  have h : (numbered letter i).toList = u :: Nat.toDigits 10 i := by simp [numbered, hl]
  rw [h, Symbol.isVarName, hu, Bool.true_and, List.all_eq_true]
  exact fun d hd ↦ Nat.isDigit_of_mem_toDigits (by decide) (by decide) hd

theorem firstFree_eq_find? (f : Nat → String) (taken : NameSet) (fuel i : Nat) :
    firstFree f taken fuel i = (List.range' i fuel).find? (fun j ↦ f j ∉ taken) := by
  induction fuel generalizing i with
  | zero => rfl
  | succ fuel ih =>
    rw [firstFree, List.range'_succ, List.find?_cons]
    by_cases hi : f i ∈ taken
    · simp [hi, ih]
    · simp [hi]

theorem firstFree_eq_some {f : Nat → String} {fuel i j : Nat}
    (h : firstFree f taken fuel i = some j) :
    f j ∉ taken := by
  rw [firstFree_eq_find?] at h
  simpa using List.find?_some h

theorem firstFree_eq_none {f : Nat → String} {fuel i : Nat} (h : firstFree f taken fuel i = none) :
    ∀ j, i ≤ j → j < i + fuel → f j ∈ taken := by
  intro j hj hj'
  rw [firstFree_eq_find?, List.find?_eq_none] at h
  simpa using h j (List.mem_range'_1.2 ⟨hj, hj'⟩)

theorem exists_firstFree {f : Nat → String} (hf : Function.Injective f) (taken : NameSet) :
    ∃ i, firstFree f taken (taken.size + 1) 0 = some i := by
  cases h : firstFree f taken (taken.size + 1) 0 with
  | some i => exact ⟨i, rfl⟩
  | none =>
    exfalso
    have hall := firstFree_eq_none h
    have hnd : ((List.range (taken.size + 1)).map f).Nodup := List.Nodup.map hf List.nodup_range
    have hsub : (List.range (taken.size + 1)).map f ⊆ taken.toList := by
      intro n hn
      obtain ⟨i, hi, rfl⟩ := List.mem_map.1 hn
      rw [List.mem_range] at hi
      exact Std.TreeSet.mem_toList.2 (hall i (Nat.zero_le i) (by omega))
    have hle := (List.subperm_of_subset hnd hsub).length_le
    rw [List.length_map, List.length_range, Std.TreeSet.length_toList] at hle
    omega

theorem freshStart_not_mem (taken : NameSet) : freshStart taken ∉ taken := by
  obtain ⟨i, hi⟩ := exists_firstFree (numbered_injective "S") taken
  rw [freshStart, hi]
  exact firstFree_eq_some hi

theorem freshStart_insertMany (used : NameSet) (names : List String) :
    freshStart (used.insertMany names) ∉ used ∧ freshStart (used.insertMany names) ∉ names := by
  have h := freshStart_not_mem (used.insertMany names)
  rwa [Std.TreeSet.mem_insertMany_list, not_or, List.contains_iff_mem] at h

theorem isVarName_freshStart (taken : NameSet) :
    Symbol.isVarName (freshStart taken).toList = true :=
  isVarName_numbered rfl (by decide) _

namespace Allocator

/-- `b` is what is left of `a` once it has handed out `names`. -/
structure Supplies (a : Allocator) (names : List String) (b : Allocator) : Prop where
  used : ∀ n, n ∈ b.used ↔ n ∈ a.used ∨ n ∈ names
  limit : b.limit = a.limit
  nodup : names.Nodup
  fresh : ∀ n ∈ names, n ∉ a.used
  legal : ∀ n ∈ names, Symbol.isVarName n.toList = true

theorem Supplies.refl (a : Allocator) : a.Supplies [] a :=
  ⟨by simp, rfl, .nil, by simp, by simp⟩

theorem Supplies.append (h : a.Supplies names b) (h' : b.Supplies more c) :
    a.Supplies (names ++ more) c where
  used n := by rw [h'.used, h.used, List.mem_append, or_assoc]
  limit := h'.limit.trans h.limit
  nodup := by
    refine List.nodup_append.2 ⟨h.nodup, h'.nodup, ?_⟩
    intro n hn m hm hx
    subst hx
    exact h'.fresh n hm ((h.used n).2 (.inr hn))
  fresh n hn := by
    rcases List.mem_append.1 hn with hn | hn
    · exact h.fresh n hn
    · exact fun ha ↦ h'.fresh n hn ((h.used n).2 (.inl ha))
  legal n hn := (List.mem_append.1 hn).elim (h.legal n) (h'.legal n)

theorem supplies_take (hn : name ∉ a.used) (hl : Symbol.isVarName name.toList = true) (i : Nat) :
    a.Supplies [name] ({ a with cursor := i }.take name).2 where
  used n := by
    simp only [take, mem_insert_iff, List.mem_singleton]
    exact or_comm
  limit := rfl
  nodup := by simp
  fresh n h := List.mem_singleton.1 h ▸ hn
  legal n h := List.mem_singleton.1 h ▸ hl

theorem isVarName_of_mem_letters (h : name ∈ letters) : Symbol.isVarName name.toList = true := by
  have hall : ∀ n ∈ letters, Symbol.isVarName n.toList = true := by decide
  exact hall name h

theorem supplies_allocate (h : a.allocate = some (name, b)) : a.Supplies [name] b := by
  unfold allocate at h
  split at h
  · rename_i hf
    cases h
    have hu : name ∉ a.used := by simpa using List.find?_some hf
    exact supplies_take hu (isVarName_of_mem_letters (List.mem_of_find?_eq_some hf)) a.cursor
  · obtain ⟨i, hi, he⟩ := Option.map_eq_some_iff.1 h
    cases he
    exact supplies_take (firstFree_eq_some hi) (isVarName_numbered rfl (by decide) i) (i + 1)

theorem supplies_allocateMany {k : Nat} (h : allocateMany k a = some (names, b)) :
    a.Supplies names b ∧ names.length = k := by
  induction k generalizing a names with
  | zero =>
    cases h
    exact ⟨.refl _, rfl⟩
  | succ k ih =>
    simp only [allocateMany, Option.bind_eq_bind, Option.bind_eq_some_iff, Option.pure_def] at h
    obtain ⟨⟨name, d⟩, hd, ⟨rest, e⟩, he, h⟩ := h
    cases h
    obtain ⟨hs, hl⟩ := ih he
    exact ⟨(supplies_allocate hd).append hs, by rw [List.length_cons, hl]⟩

theorem allocated_allocate (h : a.allocate = some (name, b)) :
    b.allocated = a.allocated.push name := by
  unfold allocate at h
  split at h
  · cases h
    rfl
  · obtain ⟨i, -, he⟩ := Option.map_eq_some_iff.1 h
    cases he
    rfl

theorem allocated_allocateMany {k : Nat} (h : allocateMany k a = some (names, b)) :
    b.allocated.toList = a.allocated.toList ++ names := by
  induction k generalizing a names with
  | zero =>
    cases h
    rw [List.append_nil]
  | succ k ih =>
    simp only [allocateMany, Option.bind_eq_bind, Option.bind_eq_some_iff, Option.pure_def] at h
    obtain ⟨⟨name, d⟩, hd, ⟨rest, e⟩, he, h⟩ := h
    cases h
    rw [ih he, allocated_allocate hd, Array.toList_push, List.append_assoc, List.singleton_append]

theorem mem_used_new {limit : Int} : name ∈ (new names limit).used ↔ name ∈ names := by
  simp [new]

theorem forall_mem_used_new (names : List String) (limit : Int) :
    ∀ n ∈ names, n ∈ (new names limit).used :=
  fun _ ↦ mem_used_new.2

theorem mem_used_reserve : name ∈ (a.reserve names).used ↔ name ∈ a.used ∨ name ∈ names := by
  simp [reserve, Std.TreeSet.mem_insertMany_list]

end Allocator

end ChomskyNormalForm
