import ChomskyNormalForm.Proofs.Language.Enumeration
import Mathlib.Data.Set.Card

namespace ChomskyNormalForm

/-- The first words of a language up to a length, as many as the bound allows. -/
structure IsHead (L : Word → Prop) (n k : Nat) (l : List String) : Prop where
  sorted : l.Pairwise fun s t ↦ List.Shortlex (· < ·) s.toList t.toList
  mem : ∀ s ∈ l, L s.toList ∧ s.length ≤ n
  length_eq : l.length = min k {w | L w ∧ w.length ≤ n}.ncard
  first : ∀ s ∈ l, ∀ t, t ∉ l → L t.toList → t.length ≤ n → List.Shortlex (· < ·) s.toList t.toList

theorem filter_length_le_isPrefix {l : List String} (n : Nat)
    (h : l.Pairwise fun s t ↦ List.Shortlex (· < ·) s.toList t.toList) :
    l.filter (·.length ≤ n) <+: l := by
  induction l with
  | nil => exact List.nil_prefix
  | cons s l ih =>
    rw [List.pairwise_cons] at h
    by_cases hs : s.length ≤ n
    · rw [List.filter_cons_of_pos (by simpa using hs)]
      exact (List.prefix_cons_inj s).2 (ih h.2)
    · have hnil : (s :: l).filter (·.length ≤ n) = [] := by
        refine List.filter_eq_nil_iff.2 fun t ht ↦ ?_
        rcases List.mem_cons.1 ht with rfl | ht
        · simpa using hs
        · have hlex := List.shortlex_def.1 (h.1 t ht)
          simp only [String.length_toList] at hlex
          simp only [decide_eq_true_eq]
          omega
      exact hnil ▸ List.nil_prefix

namespace IsListing

variable {L : Word → Prop} {n m : Nat} {l l' : List String}

theorem nodup (h : IsListing L n l) : l.Nodup := by
  refine h.sorted.imp fun {s t} hst he ↦ ?_
  subst he
  exact irrefl_of (List.Shortlex (· < ·)) s.toList hst

theorem length_eq (h : IsListing L n l) : l.length = {w | L w ∧ w.length ≤ n}.ncard := by
  have hset : {w : Word | L w ∧ w.length ≤ n} = ((l.map String.toList).toFinset : Set Word) := by
    ext w
    simp only [Set.mem_ofPred_eq, List.coe_toFinset, List.mem_map, h.mem_iff]
    constructor
    · intro hw
      exact ⟨.ofList w, by simpa using hw, String.toList_ofList⟩
    · rintro ⟨s, hs, rfl⟩
      exact hs
  rw [hset, Set.ncard_coe_finset, List.toFinset_card_of_nodup
    (h.nodup.map fun _ _ ↦ String.toList_injective), List.length_map]

theorem filter (h : IsListing L m l) (hn : n ≤ m) : IsListing L n (l.filter (·.length ≤ n)) where
  sorted := h.sorted.filter _
  mem_iff s := by
    rw [List.mem_filter, h.mem_iff, decide_eq_true_eq]
    constructor
    · exact fun hs ↦ ⟨hs.1.1, hs.2⟩
    · exact fun hs ↦ ⟨⟨hs.1, hs.2.trans hn⟩, hs.2⟩

theorem isPrefix (h : IsListing L n l) (h' : IsListing L m l') (hn : n ≤ m) : l <+: l' := by
  rw [h.eq (h'.filter hn)]
  exact filter_length_le_isPrefix n h'.sorted

theorem isHead_take (h : IsListing L n l) (k : Nat) : IsHead L n k (l.take k) where
  sorted := h.sorted.take
  mem s hs := (h.mem_iff s).1 (List.mem_of_mem_take hs)
  length_eq := by rw [List.length_take, h.length_eq]
  first s hs t ht hL hn := by
    have hmem : t ∈ l.take k ++ l.drop k :=
      (List.take_append_drop k l).symm ▸ (h.mem_iff t).2 ⟨hL, hn⟩
    have hsorted := h.sorted
    rw [← List.take_append_drop k l, List.pairwise_append] at hsorted
    exact hsorted.2.2 s hs t ((List.mem_append.1 hmem).resolve_left ht)

end IsListing

namespace Grammar

variable {g : Grammar} {length : Int} {bound : Option Int} {n m : Nat} {α : Type}

theorem upTo_natCast (k : Nat) (l : List α) : upTo (some (k : Int)) l = l.take k := by
  have hk : ¬(k : Int) < 0 := by omega
  rw [upTo, if_neg hk, Int.toNat_natCast]

@[simp] theorem upTo_nil : upTo bound ([] : List α) = [] := by
  unfold upTo
  split
  · rfl
  · exact List.take_nil

theorem words_eq (h : 0 ≤ length) : g.words length = .ok (g.derivable length.toNat) := by
  rw [words, if_neg (by omega)]

theorem firstWords_eq (h : 0 ≤ length) (bound : Option Int) :
    g.firstWords length bound = .ok (upTo bound (g.derivable length.toNat)) := by
  rw [firstWords, words_eq h]
  rfl

/-- The search for the words up to a length ends by itself, and finds just those that are derived
from the start. -/
theorem words_up_to_length (hc : g.check = .ok ()) (n : Nat) :
    ∃ t l, WordTable.Saturates n g.productions (g.heads.map (·, ∅)) t ∧
      l = (t.words g.start).toList.map (·.text) ∧ g.words n = .ok l ∧ l.Nodup ∧
      ∀ s : String, s ∈ l ↔ g.Generates s.toList ∧ s.length ≤ n := by
  have hg := check_eq_ok_iff.1 hc
  have hlist := isListing_derivable hg n
  exact ⟨g.wordTable n, g.derivable n, saturates_wordTable hg n, rfl,
    words_eq (Int.natCast_nonneg n), hlist.nodup, hlist.mem_iff⟩

def looping : Grammar :=
  ⟨.var "S", .ofEntries [(.var "S", [[.var "S", .var "S"], [.var "A"], [.epsilon]]),
    (.var "A", [[.var "S"], [.var "A", .terminal "b"], [.terminal "a"]])]⟩

theorem words_up_to_length_looping : looping.check = .ok () ∧
    ∃ t l, WordTable.Saturates 3 looping.productions (looping.heads.map (·, ∅)) t ∧
      l = (t.words looping.start).toList.map (·.text) ∧ looping.words 3 = .ok l ∧ l.Nodup ∧
      ∀ s : String, s ∈ l ↔ looping.Generates s.toList ∧ s.length ≤ 3 :=
  ⟨rfl, words_up_to_length rfl 3⟩

/-- The words come in order, and a greater length or a greater bound only adds to their end. -/
theorem firstWords_stable (hc : g.check = .ok ()) (hn : n ≤ m) :
    ∃ l l', g.firstWords n none = .ok l ∧ g.firstWords m none = .ok l' ∧
      IsListing g.Generates n l ∧ l <+: l' ∧
      ∀ k : Nat, ∃ head, g.firstWords n (some k) = .ok head ∧ IsHead g.Generates n k head ∧
        (head.length = k → g.firstWords m (some k) = .ok head) := by
  have hg := check_eq_ok_iff.1 hc
  have hlist := isListing_derivable hg n
  obtain ⟨rest, hrest⟩ := hlist.isPrefix (isListing_derivable hg m) hn
  have hfirst (n : Nat) (bound : Option Int) :
      g.firstWords n bound = .ok (upTo bound (g.derivable n)) :=
    firstWords_eq (Int.natCast_nonneg n) bound
  refine ⟨g.derivable n, g.derivable m, hfirst n none, hfirst m none, hlist,
    ⟨rest, hrest⟩, fun k ↦ ?_⟩
  refine ⟨(g.derivable n).take k, by rw [hfirst, upTo_natCast], hlist.isHead_take k, fun hk ↦ ?_⟩
  have hle : k ≤ (g.derivable n).length := by
    rw [List.length_take] at hk
    omega
  rw [hfirst, upTo_natCast, ← hrest, List.take_append_of_le_length hle]

theorem firstWords_stable_looping : looping.check = .ok () ∧ 1 ≤ 3 ∧
    ∃ l l', looping.firstWords 1 none = .ok l ∧ looping.firstWords 3 none = .ok l' ∧
      IsListing looping.Generates 1 l ∧ l <+: l' ∧
      ∀ k : Nat, ∃ head, looping.firstWords 1 (some k) = .ok head ∧
      IsHead looping.Generates 1 k head ∧
        (head.length = k → looping.firstWords 3 (some k) = .ok head) :=
  ⟨rfl, by decide, firstWords_stable rfl (by decide)⟩

end Grammar

end ChomskyNormalForm
