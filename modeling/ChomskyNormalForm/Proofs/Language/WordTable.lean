import ChomskyNormalForm.Language.Words
import ChomskyNormalForm.Proofs.Grammar.Legal
import Mathlib.Algebra.Order.BigOperators.Group.List
import Mathlib.Data.List.Perm.Subperm
import Mathlib.Data.List.Shortlex

namespace ChomskyNormalForm

namespace WordText

variable {u v : WordText} {x : Word}

def ofWord (x : Word) : WordText := .ofString (.ofList x)

@[simp] theorem word_ofWord : (ofWord x).word = x := by
  rw [ofWord, word_ofString, String.toList_ofList]

@[simp] theorem ofWord_word : ofWord u.word = u := word_injective word_ofWord

theorem order_eq_lt : order u v = .lt ↔ List.Shortlex (· < ·) u.word v.word := by
  have htext : compareOn text u v = .lt ↔ List.Lex (· < ·) u.word v.word := by
    have hlt : compareOn text u v = .lt ↔ u.text < v.text := compareOfLessAndEq_eq_lt
    exact hlt.trans String.lt_iff
  rw [List.shortlex_def, length_word, length_word, ← htext, order, compareLex,
    Ordering.then_eq_lt, compareOn, Nat.compare_eq_lt, Nat.compare_eq_eq]

end WordText

namespace WordSet

variable {us vs : WordSet} {w : WordText} {x : Word} {n : Nat}

def Holds (us : WordSet) (x : Word) : Prop := WordText.ofWord x ∈ us

instance : Decidable (us.Holds x) := inferInstanceAs (Decidable (_ ∈ us))

theorem mem_iff_holds : w ∈ us ↔ us.Holds w.word := by rw [Holds, WordText.ofWord_word]

theorem not_holds_empty : ¬(∅ : WordSet).Holds x := Std.TreeSet.not_mem_emptyc

theorem holds_only {s : String} : (only s).Holds x ↔ x = s.toList := by
  rw [Holds, mem_only]
  constructor
  · intro h
    rw [← WordText.word_ofString, h, WordText.word_ofWord]
  · intro h
    subst h
    exact WordText.word_injective WordText.word_ofWord.symm

theorem holds_addAll : (us.addAll vs.toList).Holds x ↔ us.Holds x ∨ vs.Holds x := by
  rw [Holds, mem_addAll, Std.TreeSet.mem_toList, Holds, Holds]

theorem holds_concat : (concat n us vs).Holds x ↔ x.length ≤ n ∧ ∃ u v, x = u ++ v ∧ us.Holds u ∧
    vs.Holds v := by
  rw [Holds, mem_concat]
  constructor
  · intro h
    obtain ⟨u, hu, v, hv, hn, he⟩ := h
    obtain rfl : u.word ++ v.word = x := by rw [← WordText.word_append, he, WordText.word_ofWord]
    refine ⟨?_, u.word, v.word, rfl, mem_iff_holds.1 hu, mem_iff_holds.1 hv⟩
    rwa [List.length_append, WordText.length_word, WordText.length_word]
  · intro h
    obtain ⟨hn, u, v, rfl, hu, hv⟩ := h
    refine ⟨.ofWord u, hu, .ofWord v, hv, ?_, WordText.word_injective ?_⟩
    · rw [← WordText.length_word, ← WordText.length_word, WordText.word_ofWord,
        WordText.word_ofWord]
      rwa [List.length_append] at hn
    · rw [WordText.word_append, WordText.word_ofWord, WordText.word_ofWord, WordText.word_ofWord]

theorem nodup_toList (us : WordSet) : us.toList.Nodup :=
  us.distinct_toList.imp fun h he ↦ h (Std.LawfulEqCmp.compare_eq_iff_eq.2 he)

theorem size_le (h : ∀ w ∈ us, w ∈ vs) : us.size ≤ vs.size := by
  rw [← Std.TreeSet.length_toList, ← Std.TreeSet.length_toList]
  refine (List.subperm_of_subset us.nodup_toList fun w hw ↦ ?_).length_le
  exact Std.TreeSet.mem_toList.2 (h w (Std.TreeSet.mem_toList.1 hw))

theorem size_lt (h : ∀ w ∈ us, w ∈ vs) (hv : w ∈ vs) (hu : w ∉ us) : us.size < vs.size := by
  have hn : (w :: us.toList).Nodup :=
    List.nodup_cons.2 ⟨fun hw ↦ hu (Std.TreeSet.mem_toList.1 hw), us.nodup_toList⟩
  have hsub : w :: us.toList ⊆ vs.toList := by
    refine List.cons_subset.2 ⟨Std.TreeSet.mem_toList.2 hv, fun u hw ↦ ?_⟩
    exact Std.TreeSet.mem_toList.2 (h u (Std.TreeSet.mem_toList.1 hw))
  have hle := (List.subperm_of_subset hn hsub).length_le
  rwa [List.length_cons, Std.TreeSet.length_toList, Std.TreeSet.length_toList] at hle

end WordSet

namespace WordTable

variable {t u : WordTable} {v : Symbol} {n : Nat} {ws : WordSet} {b : Body} {x : Word}
  {p : Production} {ps : List Production}

def keys (t : WordTable) : List Symbol := t.map Prod.fst

@[simp] theorem keys_put : (t.put v ws).keys = t.keys := by
  rw [put, keys, keys, List.map_map]
  refine List.map_congr_left fun e _ ↦ ?_
  simp only [Function.comp_apply]
  split
  · rename_i he
    exact he.symm
  · rfl

theorem words_of_not_mem (hv : v ∉ t.keys) : t.words v = ∅ := by
  have hl : t.lookup v = none := by
    rw [List.lookup_eq_none_iff]
    intro e he
    rw [bne_iff_ne]
    intro h
    exact hv (h ▸ List.mem_map_of_mem he)
  rw [words, hl, Option.getD_none]

theorem words_cons (e : Symbol × WordSet) (t : WordTable) :
    WordTable.words (e :: t) v = if v = e.1 then e.2 else t.words v := by
  split
  · rename_i h
    rw [words, List.lookup_cons, beq_iff_eq.2 h, Option.getD_some]
  · rename_i h
    rw [words, List.lookup_cons, beq_eq_false_iff_ne.2 h, words]

theorem words_of_mem {e : Symbol × WordSet} (ht : t.keys.Nodup) (he : e ∈ t) :
    t.words e.1 = e.2 := by
  rw [words, Rules.lookup_of_mem ht he, Option.getD_some]

theorem words_put {k : Symbol} : (t.put k ws).words v = if v = k ∧
    v ∈ t.keys then ws else t.words v := by
  induction t with
  | nil => simp [put, words, keys]
  | cons e t ih =>
    have hput : WordTable.put (e :: t) k ws = (if e.1 = k then (k, ws) else e) ::
        WordTable.put t k ws := rfl
    have hkeys : WordTable.keys (e :: t) = e.1 :: WordTable.keys t := rfl
    rw [hput, words_cons, words_cons, ih]
    simp only [hkeys, List.mem_cons]
    grind

def language (t : WordTable) : Interpretation := fun v ↦ (t.words v).Holds

instance : Decidable (t.language v x) := inferInstanceAs (Decidable ((t.words v).Holds x))

theorem mem_keys (h : t.language v x) : v ∈ t.keys := by
  by_contra hv
  rw [language, words_of_not_mem hv] at h
  exact WordSet.not_holds_empty h

theorem holds_prolong {s : Symbol} (hs : ∀ name, s ≠ .foreign name)
    (hws : ∀ u, ws.Holds u → u.length ≤ n) :
    (t.prolong n ws s).Holds x ↔ x.length ≤ n ∧ ∃ u y, x = u ++ y ∧ ws.Holds u ∧
    s.Denotes t.language y := by
  cases s with
  | epsilon =>
    constructor
    · exact fun h ↦ ⟨hws x h, x, [], (List.append_nil x).symm, h, rfl⟩
    · intro h
      obtain ⟨-, u, y, rfl, hu, rfl⟩ := h
      rwa [List.append_nil]
  | terminal a => simp only [prolong, WordSet.holds_concat, WordSet.holds_only, Symbol.Denotes]
  | var name => exact WordSet.holds_concat
  | foreign name => exact absurd rfl (hs name)

theorem holds_foldl_prolong (hb : ∀ s ∈ b, ∀ name, s ≠ .foreign name)
    (hws : ∀ u, ws.Holds u → u.length ≤ n) :
    (b.foldl (t.prolong n) ws).Holds x ↔
      x.length ≤ n ∧ ∃ u y, x = u ++ y ∧ ws.Holds u ∧ Body.Denotes t.language b y := by
  induction b generalizing ws with
  | nil =>
    constructor
    · exact fun h ↦ ⟨hws x h, x, [], (List.append_nil x).symm, h, rfl⟩
    · intro h
      obtain ⟨-, u, y, rfl, hu, rfl⟩ := h
      rwa [List.append_nil]
  | cons s b ih =>
    rw [List.forall_mem_cons] at hb
    have hp := fun x ↦ @holds_prolong t n ws x s hb.1 hws
    -- what is too long after one symbol stays too long, so no word is lost by cutting at each of
    -- them
    rw [List.foldl_cons, ih hb.2 fun u hu ↦ ((hp u).1 hu).1]
    refine and_congr_right fun hn ↦ ?_
    constructor
    · intro h
      obtain ⟨u, y, rfl, hu, hy⟩ := h
      obtain ⟨-, u, z, rfl, hu, hz⟩ := (hp u).1 hu
      exact ⟨u, z ++ y, List.append_assoc .., hu, z, y, rfl, hz, hy⟩
    · intro h
      obtain ⟨u, _, rfl, hu, z, y, rfl, hz, hy⟩ := h
      rw [← List.append_assoc] at hn
      have hle : (u ++ z).length ≤ n := (List.prefix_append _ y).length_le.trans hn
      exact ⟨u ++ z, y, (List.append_assoc ..).symm, (hp _).2 ⟨hle, u, z, rfl, hu, hz⟩, hy⟩

theorem holds_yields (hb : ∀ s ∈ b, ∀ name, s ≠ .foreign name) :
    (t.yields n b).Holds x ↔ x.length ≤ n ∧ Body.Denotes t.language b x := by
  have hempty : ∀ u, (WordSet.only "").Holds u ↔ u = [] := fun u ↦ WordSet.holds_only
  rw [yields, holds_foldl_prolong hb fun u hu ↦ by rw [(hempty u).1 hu]; exact Nat.zero_le n]
  simp only [hempty]
  refine and_congr_right fun _ ↦ ⟨?_, fun h ↦ ⟨[], x, rfl, rfl, h⟩⟩
  intro h
  obtain ⟨_, y, rfl, rfl, hy⟩ := h
  exact hy

@[simp] theorem keys_learn : (learn n t p).keys = t.keys := keys_put

theorem language_learn : (learn n t p).language v x ↔
    t.language v x ∨ v = p.head ∧ v ∈ t.keys ∧ (t.yields n p.body).Holds x := by
  rw [language, learn, words_put]
  split
  · rename_i h
    obtain ⟨rfl, hv⟩ := h
    rw [WordSet.holds_addAll]
    exact or_congr_right ⟨fun hy ↦ ⟨rfl, hv, hy⟩, fun hy ↦ hy.2.2⟩
  · rename_i h
    exact ⟨.inl, fun hor ↦ hor.resolve_right fun hy ↦ h ⟨hy.1, hy.2.1⟩⟩

def round (n : Nat) (ps : List Production) (t : WordTable) : WordTable := ps.foldl (learn n) t

@[simp] theorem keys_round : (round n ps t).keys = t.keys := by
  unfold round
  induction ps generalizing t with
  | nil => rfl
  | cons p ps ih => rw [List.foldl_cons, ih, keys_learn]

theorem language_round (ps : List Production) (h : t.language v x) :
    (round n ps t).language v x := by
  unfold round
  induction ps generalizing t with
  | nil => exact h
  | cons p ps ih => exact ih (language_learn.2 (.inl h))

/-- After a round each left-hand side has what its body yields with the words from before. -/
theorem language_round_of_mem (hp : p ∈ ps) (hk : p.head ∈ t.keys)
    (hb : ∀ s ∈ p.body, ∀ name, s ≠ .foreign name) (hn : x.length ≤ n)
    (hx : Body.Denotes t.language p.body x) : (round n ps t).language p.head x := by
  unfold round
  induction ps generalizing t with
  | nil => exact absurd hp List.not_mem_nil
  | cons q ps ih =>
    rcases List.mem_cons.1 hp with rfl | hp
    · have hl : (learn n t p).language p.head x :=
        language_learn.2 (.inr ⟨rfl, hk, (holds_yields hb).2 ⟨hn, hx⟩⟩)
      exact language_round ps hl
    · have hk : p.head ∈ (learn n t q).keys := by rwa [keys_learn]
      exact ih hp hk (hx.mono fun _ _ _ hy ↦ language_learn.2 (.inl hy))

theorem count_eq (ht : t.keys.Nodup) : t.count = (t.keys.map fun v ↦ (t.words v).size).sum := by
  have hsum : ∀ k, t.foldl (fun n e ↦ n + e.2.size) k = k + (t.map (·.2.size)).sum := by
    clear ht
    induction t with
    | nil => exact fun k ↦ rfl
    | cons e t ih =>
      intro k
      rw [List.foldl_cons, ih, List.map_cons, List.sum_cons, Nat.add_assoc]
  rw [count, hsum, Nat.zero_add, keys, List.map_map]
  refine congrArg List.sum (List.map_congr_left fun e he ↦ ?_)
  rw [Function.comp_apply, words_of_mem ht he]

def IsStale (n : Nat) (ps : List Production) (t : WordTable) : Prop :=
  ∀ v x, (round n ps t).language v x → t.language v x

/-- A round leaves the table with as many words just if it leaves it with the same ones. -/
theorem count_round_eq_iff (ht : t.keys.Nodup) : (round n ps t).count = t.count ↔
    t.IsStale n ps := by
  have hle : ∀ v, ∀ w ∈ t.words v, w ∈ (round n ps t).words v :=
    fun v w hw ↦ WordSet.mem_iff_holds.2 (language_round ps (WordSet.mem_iff_holds.1 hw))
  rw [count_eq ht, count_eq (by rwa [keys_round]), keys_round]
  constructor
  · intro hc v x h
    by_contra hx
    have hk : v ∈ t.keys := by
      rw [← @keys_round t n ps]
      exact mem_keys h
    have hlt : (t.keys.map fun v ↦ (t.words v).size).sum <
        (t.keys.map fun v ↦ ((round n ps t).words v).size).sum :=
      List.sum_lt_sum _ _ (fun v _ ↦ WordSet.size_le (hle v)) ⟨v, hk, WordSet.size_lt (hle v) h hx⟩
    omega
  · intro hs
    refine congrArg List.sum (List.map_congr_left fun v _ ↦ le_antisymm ?_
      (WordSet.size_le (hle v)))
    exact WordSet.size_le fun w hw ↦ WordSet.mem_iff_holds.2 (hs v _ (WordSet.mem_iff_holds.1 hw))

/-- Round after round as long as one of them brings something new. -/
inductive Saturates (n : Nat) (ps : List Production) : WordTable → WordTable → Prop
  | stop {t : WordTable} : t.IsStale n ps → Saturates n ps t t
  | next {t u : WordTable} : ¬t.IsStale n ps → Saturates n ps (round n ps t) u → Saturates n ps t u

end WordTable

end ChomskyNormalForm
