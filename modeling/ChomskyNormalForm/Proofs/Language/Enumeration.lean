import ChomskyNormalForm.Proofs.Language.WordTable
import Mathlib.Data.List.Sort

namespace ChomskyNormalForm

theorem Body.Denotes.mono_infix {I J : Interpretation} {b : Body} {x : Word}
    (hb : Body.Denotes I b x) (h : ∀ v, ∀ u, u <:+: x → I v u → J v u) : Body.Denotes J b x := by
  induction b generalizing x with
  | nil => exact hb
  | cons s b ih =>
    obtain ⟨u, y, rfl, hu, hy⟩ := hb
    have hJ : s.Denotes J u := by
      cases s with
      | var name => exact h _ u (List.prefix_append u y).isInfix hu
      | terminal a => exact hu
      | epsilon => exact hu
      | foreign t => exact hu
    exact ⟨u, y, rfl, hJ, ih hy fun v z hz ↦ h v z (hz.trans (List.suffix_append u y).isInfix)⟩

theorem Grammar.IsLegal.ne_foreign {g : Grammar} {v s : Symbol} {b : Body} (hg : g.IsLegal)
    (hb : b ∈ g.bodies v) (hs : s ∈ b) (name : String) : s ≠ .foreign name := by
  rintro rfl
  rcases hg.body v b hb with rfl | ⟨-, h⟩
  · exact nomatch List.mem_singleton.1 hs
  · exact h _ hs

open Grammar

namespace WordTable

variable {g : Grammar} {n k : Nat} {t : WordTable} {p : Production} {x : Word} {v : Symbol}

structure Fits (g : Grammar) (n : Nat) (t : WordTable) : Prop where
  keys_eq : t.keys = g.heads
  sound : ∀ v x, t.language v x → g.Derives v x ∧ x.length ≤ n

theorem Fits.learn (ht : t.Fits g n) (hg : g.IsLegal) (hp : p.body ∈ g.bodies p.head) :
    (learn n t p).Fits g n := by
  refine ⟨keys_learn.trans ht.keys_eq, fun v x h ↦ ?_⟩
  rw [language_learn, holds_yields fun s hs ↦ hg.ne_foreign hp hs] at h
  rcases h with h | ⟨rfl, -, hn, hx⟩
  · exact ht.sound v x h
  · exact ⟨derives_of_mem hp (hx.mono fun v _ y hy ↦ (ht.sound v y hy).1), hn⟩

theorem Fits.round (ht : t.Fits g n) (hg : g.IsLegal) : (round n g.productions t).Fits g n := by
  have hfold : ∀ (ps : List Production) (t : WordTable), (∀ p ∈ ps, p.body ∈ g.bodies p.head) →
      t.Fits g n →
      (WordTable.round n ps t).Fits g n := by
    intro ps
    induction ps with
    | nil => exact fun t _ ht ↦ ht
    | cons p ps ih =>
      intro t hps ht
      rw [List.forall_mem_cons] at hps
      exact ih (WordTable.learn n t p) hps.2 (ht.learn hg hps.1)
  exact hfold _ t (fun p hp ↦ mem_productions.1 hp) ht

def Knows (g : Grammar) (t : WordTable) (x : Word) : Prop := ∀ v, g.Derives v x → t.language v x

/-- If all shorter words are there, a round that brings a word for no further variable shows that no
one derives it. -/
theorem Fits.knows_of_stale (ht : t.Fits g n) (hg : g.IsLegal) (hn : x.length ≤ n)
    (hshort : ∀ u : Word, u.length < x.length → t.Knows g u)
    (hstale : ∀ v, (WordTable.round n g.productions t).language v x → t.language v x) :
    t.Knows g x := by
  intro v hv
  refine derives_induct (I := fun v w ↦ w = x → t.language v w) (fun v b hb w hd hw ↦ ?_) hv rfl
  subst hw
  have hp : ⟨v, b⟩ ∈ g.productions := mem_productions.2 hb
  refine hstale v (language_round_of_mem hp ?_ (fun s hs ↦ hg.ne_foreign hb hs) hn ?_)
  · rw [ht.keys_eq]
    exact mem_of_mem_bodies hb
  · -- a part of the word is shorter, or it is the word and covered by the induction
    refine hd.mono_infix fun u y hy ⟨hder, hI⟩ ↦ ?_
    rcases hy.length_le.lt_or_eq with hlt | heq
    · exact hshort y hlt u hder
    · exact hI (hy.eq_of_length heq)

theorem Fits.knows_of_isStale (ht : t.Fits g n) (hg : g.IsLegal) (hs : t.IsStale n g.productions)
    (hn : x.length ≤ n) :
    t.Knows g x := by
  induction hm : x.length using Nat.strong_induction_on generalizing x with
  | _ m ih =>
    subst hm
    exact ht.knows_of_stale hg hn (fun u hu ↦ ih u.length hu (by omega) rfl) fun v ↦ hs v x

theorem Saturates.fits {u : WordTable} (h : Saturates n g.productions t u) (hg : g.IsLegal)
    (ht : t.Fits g n) :
    u.Fits g n ∧ u.IsStale n g.productions := by
  induction h with
  | stop hs => exact ⟨ht, hs⟩
  | next _ _ ih => exact ih (ht.round hg)

def holders (g : Grammar) (t : WordTable) (x : Word) : Nat :=
  (g.heads.filter fun v ↦ t.language v x).length

theorem holders_lt {u : WordTable} (hle : ∀ v, t.language v x → u.language v x) (hv : v ∈ g)
    (hu : u.language v x) (ht : ¬t.language v x) : t.holders g x < u.holders g x := by
  have hsub :
      (g.heads.filter fun v ↦ t.language v x).Sublist (g.heads.filter fun v ↦ u.language v x) :=
    List.monotone_filter_right _ fun v hv ↦ decide_eq_true (hle v (of_decide_eq_true hv))
  refine lt_of_le_of_ne hsub.length_le fun he ↦ ht ?_
  have hmem : v ∈ g.heads.filter fun v ↦ u.language v x := List.mem_filter.2 ⟨hv, decide_eq_true hu⟩
  rw [← hsub.eq_of_length he] at hmem
  exact of_decide_eq_true (List.mem_filter.1 hmem).2

end WordTable

namespace Grammar

variable {g : Grammar} {n j k m : Nat} {v : Symbol} {x : Word}

def tableAfter (g : Grammar) (n : Nat) : Nat → WordTable
  | 0 => g.heads.map (·, ∅)
  | k + 1 => WordTable.round n g.productions (g.tableAfter n k)

theorem fits_tableAfter (hg : g.IsLegal) (n k : Nat) : (g.tableAfter n k).Fits g n := by
  induction k with
  | zero =>
    have hkeys : (g.tableAfter n 0).keys = g.heads := by
      rw [tableAfter, WordTable.keys, List.map_map]
      exact List.map_id _
    refine ⟨hkeys, fun v x h ↦ ?_⟩
    have hmem : (v, ∅) ∈ g.tableAfter n 0 := List.mem_map_of_mem (hkeys ▸ WordTable.mem_keys h)
    rw [WordTable.language, WordTable.words_of_mem (hkeys ▸ g.nodup_heads) hmem] at h
    exact absurd h WordSet.not_holds_empty
  | succ k ih => exact ih.round hg

theorem language_tableAfter (h : (g.tableAfter n j).language v x) (hk : j ≤ k) :
    (g.tableAfter n k).language v x := by
  induction hk with
  | refl => exact h
  | step _ ih => exact WordTable.language_round _ ih

/-- Once all shorter words are there, each round brings a word for one more variable, until all that
derive it have it. -/
theorem knows_or_le (hg : g.IsLegal) (hn : x.length ≤ n)
    (hshort : ∀ u : Word, u.length < x.length → (g.tableAfter n j).Knows g u) (k : Nat) :
    (g.tableAfter n (j + k)).Knows g x ∨ k ≤ (g.tableAfter n (j + k)).holders g x := by
  induction k with
  | zero => exact .inr (Nat.zero_le _)
  | succ k ih =>
    have hle : ∀ v, (g.tableAfter n (j + k)).language v x →
        (g.tableAfter n (j + (k + 1))).language v x :=
      fun v hv ↦ language_tableAfter hv (Nat.le_succ _)
    rcases ih with ih | ih
    · exact .inl fun v hv ↦ hle v (ih v hv)
    by_cases hstale : ∀ v, (g.tableAfter n (j + (k + 1))).language v x →
      (g.tableAfter n (j + k)).language v x
    · have hknows := (fits_tableAfter hg n (j + k)).knows_of_stale hg hn
        (fun u hu v hv ↦ language_tableAfter (hshort u hu v hv) (Nat.le_add_right j k)) hstale
      exact .inl fun v hv ↦ hle v (hknows v hv)
    · -- some variable got the word in this round
      obtain ⟨v, hstale⟩ := not_forall.1 hstale
      obtain ⟨hv, hnot⟩ := Classical.not_imp.1 hstale
      have hmem : v ∈ g.heads :=
        (fits_tableAfter hg n (j + (k + 1))).keys_eq ▸ WordTable.mem_keys hv
      exact .inr (Nat.succ_le_of_lt (ih.trans_lt (WordTable.holders_lt hle hmem hv hnot)))

theorem knows_of_length_lt (hg : g.IsLegal) (hm : m ≤ n + 1) (hx : x.length < m) :
    (g.tableAfter n (g.heads.length * m)).Knows g x := by
  induction m generalizing x with
  | zero => exact absurd hx (Nat.not_lt_zero _)
  | succ m ih =>
    have hshort : ∀ u : Word, u.length < m → (g.tableAfter n (g.heads.length * m)).Knows g u :=
      fun u hu ↦ ih (by omega) hu
    rcases (Nat.lt_succ_iff.1 hx).lt_or_eq with hlt | rfl
    · exact fun v hv ↦ language_tableAfter (hshort x hlt v hv)
        (Nat.mul_le_mul_left _ (Nat.le_succ m))
    -- the next rounds are for the words of this length, one for each variable that may get one
    rcases knows_or_le hg (by omega) hshort g.heads.length with h | h
    · exact h
    · rintro v ⟨b, hb, -⟩
      have hall := List.length_filter_eq_length_iff.1 (le_antisymm (List.length_filter_le ..) h)
      exact of_decide_eq_true (hall v (mem_of_mem_bodies hb))

theorem isStale_tableAfter (hg : g.IsLegal) (n : Nat) :
    (g.tableAfter n (g.heads.length * (n + 1))).IsStale n g.productions := by
  intro v x h
  obtain ⟨hv, hn⟩ := (fits_tableAfter hg n (g.heads.length * (n + 1) + 1)).sound v x h
  exact knows_of_length_lt hg le_rfl (by omega) v hv

/-- The bound on the rounds is never what ends them. -/
theorem saturates_wordTable (hg : g.IsLegal) (n : Nat) :
    WordTable.Saturates n g.productions (g.heads.map (·, ∅)) (g.wordTable n) := by
  have hsaturate : ∀ fuel j, j + fuel = g.heads.length * (n + 1) →
      WordTable.Saturates n g.productions (g.tableAfter n j)
      (WordTable.saturate g.productions n fuel (g.tableAfter n j)) := by
    intro fuel
    induction fuel with
    | zero =>
      rintro j rfl
      exact .stop (isStale_tableAfter hg n)
    | succ fuel ih =>
      intro j hj
      have hkeys : (g.tableAfter n j).keys.Nodup := (fits_tableAfter hg n j).keys_eq ▸ g.nodup_heads
      have hcount := @WordTable.count_round_eq_iff _ n g.productions hkeys
      unfold WordTable.saturate
      by_cases hs : (g.tableAfter n j).IsStale n g.productions
      · exact (if_pos (hcount.2 hs)).symm ▸ .stop hs
      · exact (if_neg (mt hcount.1 hs)).symm ▸ .next hs (ih (j + 1) (by omega))
  exact hsaturate _ 0 (Nat.zero_add _)

theorem language_wordTable (hg : g.IsLegal) : (g.wordTable n).language v x ↔ g.Derives v x ∧
    x.length ≤ n := by
  obtain ⟨hfits, hs⟩ := (saturates_wordTable hg n).fits hg (fits_tableAfter hg n 0)
  exact ⟨hfits.sound v x, fun ⟨hv, hn⟩ ↦ hfits.knows_of_isStale hg hs hn v hv⟩

end Grammar

/-- The words of a language up to a length, shorter ones first, and those of one length in the order
of the letters. -/
structure IsListing (L : Word → Prop) (n : Nat) (l : List String) : Prop where
  sorted : l.Pairwise fun s t ↦ List.Shortlex (· < ·) s.toList t.toList
  mem_iff : ∀ s, s ∈ l ↔ L s.toList ∧ s.length ≤ n

namespace Grammar

theorem isListing_derivable {g : Grammar} (hg : g.IsLegal) (n : Nat) :
    IsListing g.Generates n (g.derivable n) where
  sorted := by
    have hsorted : ((g.wordTable n).words g.start).toList.Pairwise fun u v ↦
        List.Shortlex (· < ·) u.word v.word :=
      Std.TreeSet.ordered_toList.imp WordText.order_eq_lt.1
    exact List.pairwise_map.2 hsorted
  mem_iff s := by
    have hw : s ∈ g.derivable n ↔ (g.wordTable n).language g.start s.toList := by
      rw [derivable, List.mem_map]
      constructor
      · rintro ⟨w, hw, rfl⟩
        exact WordSet.mem_iff_holds.1 (Std.TreeSet.mem_toList.1 hw)
      · exact fun h ↦ ⟨.ofWord s.toList, Std.TreeSet.mem_toList.2 h, String.ofList_toList⟩
    rw [hw, language_wordTable hg, String.length_toList]
    exact .rfl

end Grammar

theorem IsListing.eq {L : Word → Prop} {n : Nat} {l m : List String} (hl : IsListing L n l)
    (hm : IsListing L n m) :
    l = m := by
  have hmap : l.map String.toList = m.map String.toList := by
    refine (List.pairwise_map.2 hl.sorted).eq_of_mem_iff (List.pairwise_map.2 hm.sorted) fun w ↦ ?_
    simp only [List.mem_map, hl.mem_iff, hm.mem_iff]
  exact List.map_injective_iff.2 (fun _ _ ↦ String.toList_injective) hmap

end ChomskyNormalForm
