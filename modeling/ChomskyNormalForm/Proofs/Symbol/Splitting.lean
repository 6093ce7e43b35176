import ChomskyNormalForm.Proofs.Symbol.Reader

namespace ChomskyNormalForm

namespace Body

open Text

variable {b d before : Body} {c x : Char} {cs done : List Char} {name : String}

def Splits (cs : List Char) (b : Body) : Prop := (∀ s ∈ b, s.IsLegal) ∧ b.chars = cs

def IsSplittable (cs : List Char) : Prop := ∃ b, Splits cs b

theorem Splits.unique (hb : Splits cs b) (hd : Splits cs d) : d = b :=
  chars_injective hd.1 hb.1 (hd.2.trans hb.2.symm)

theorem Splits.foldlM_push (h : Splits cs b) : cs.foldlM push [] = .ok b.reverse := by
  rw [← h.2, foldlM_push_chars h.1, List.append_nil]

theorem Splits.concat {s : Symbol} {t : List Char} (h : Splits cs before.reverse) (hs : s.IsLegal)
    (ht : s.text.toList = t) : Splits (cs ++ t) (s :: before).reverse := by
  rw [List.reverse_cons]
  refine ⟨List.forall_mem_append.2 ⟨h.1, List.forall_mem_singleton.2 hs⟩, ?_⟩
  rw [chars, List.flatMap_append, ← chars, h.2, List.flatMap_singleton, ht]

theorem isLegal_push_digit (hn : (Symbol.var name).IsLegal) (hd : c.isDigit = true) :
    (Symbol.var (name.push c)).IsLegal := by
  obtain ⟨u, ds, hname, hu, hds⟩ := hn.exists_toList_eq
  rw [Symbol.IsLegal, String.toList_push, hname, List.cons_append, Symbol.isVarName, hu,
    Bool.true_and, List.all_append, List.all_eq_true.2 hds]
  simpa using hd

theorem Splits.push_digit (h : Splits cs (.var name :: before).reverse) (hd : c.isDigit = true) :
    Splits (cs ++ [c]) (.var (name.push c) :: before).reverse := by
  obtain ⟨hl, hc⟩ := h
  rw [List.reverse_cons] at hl hc
  have hbefore : Splits (chars before.reverse) before.reverse :=
    ⟨fun s hs ↦ hl s (List.mem_append_left _ hs), rfl⟩
  have hname : (Symbol.var name).IsLegal :=
    hl _ (List.mem_append_right _ (List.mem_singleton_self _))
  rw [chars, List.flatMap_append, ← chars, List.flatMap_singleton] at hc
  rw [← hc, List.append_assoc]
  exact hbefore.concat (isLegal_push_digit hname hd) (String.toList_push c)

theorem Splits.ends_push (h : Splits cs before.reverse) (c : Char) :
    Ends (· = c) (push before c) fun b ↦ Splits (cs ++ [c]) b.reverse := by
  unfold push
  split
  · rename_i hu
    have hs : (Symbol.var (.singleton c)).IsLegal := by
      simpa [Symbol.IsLegal, Symbol.isVarName] using hu
    exact h.concat hs (String.toList_singleton c)
  split
  · rename_i hl
    have hs : (Symbol.terminal (.singleton c)).IsLegal := by
      simpa [Symbol.IsLegal, Symbol.isTerminalText] using hl
    exact h.concat hs (String.toList_singleton c)
  split
  · split
    · rename_i hd
      exact h.push_digit hd
    · rfl
  · rfl

/-- A character that is refused fits behind no row of symbols with the same text. -/
theorem Splits.not_isSplittable (h : Splits cs before.reverse) (hx : push before c = .error x) :
    ¬IsSplittable (cs ++ [c]) := by
  rintro ⟨b, hb⟩
  have hf := hb.foldlM_push
  rw [List.foldlM_append, h.foldlM_push, ok_bind, List.reverse_reverse, List.foldlM_cons, hx] at hf
  exact nomatch hf

/-- `x` is the last character of the shortest beginning of `cs` that no row of symbols is written
with. -/
def FailsAt (cs : List Char) (x : Char) : Prop :=
  ∃ p r, cs = p ++ x :: r ∧ (∀ q, q <+: p → IsSplittable q) ∧ ¬IsSplittable (p ++ [x])

theorem ends_foldlM_push (hd : Splits done before.reverse) (hp : ∀ q, q <+: done → IsSplittable q) :
    Ends (FailsAt (done ++ cs)) (cs.foldlM push before) fun b ↦ Splits (done ++ cs) b.reverse := by
  induction cs generalizing done before with
  | nil =>
    rw [List.append_nil]
    exact hd
  | cons c cs ih =>
    have hs := hd.ends_push c
    rw [List.foldlM_cons]
    cases hc : push before c with
    | error x =>
      rw [hc] at hs
      obtain rfl : x = c := hs
      exact ⟨done, cs, rfl, hp, hd.not_isSplittable hc⟩
    | ok b =>
      rw [hc] at hs
      rw [ok_bind, List.append_cons]
      refine ih hs fun q hq ↦ ?_
      rcases List.prefix_concat_iff.1 hq with rfl | hq
      · exact ⟨_, hs⟩
      · exact hp q hq

theorem ends_scan (cs : List Char) : Ends (FailsAt cs) (scan cs) (Splits cs) := by
  have hnil : Splits [] [].reverse := ⟨List.forall_mem_nil _, rfl⟩
  have hf : Ends (FailsAt cs) (cs.foldlM push []) fun b ↦ Splits cs b.reverse :=
    ends_foldlM_push hnil fun q hq ↦ ⟨[], List.prefix_nil.1 hq ▸ hnil⟩
  rw [scan]
  cases hs : cs.foldlM push [] with
  | error x =>
    rw [hs] at hf
    exact hf
  | ok b =>
    rw [hs] at hf
    exact hf

theorem not_isSplittable_of_scan (h : scan cs = .error x) : ¬IsSplittable cs := by
  rintro ⟨b, hl, rfl⟩
  rw [scan_chars hl] at h
  exact nomatch h

/-- A body is read as the one row of symbols that is written with its text, once blanks and the
marks for the empty word are taken out. Where there is none, the first character that does not fit
is named. -/
theorem read_splits (text : String) :
    let c := compact text.toList
    let d := c.filter (!isMark ·)
    (c = "eps".toList ∨ d = []) ∧ Body.read text = .ok Body.epsilon ∨
      ¬(c = "eps".toList ∨ d = []) ∧
        ((∃ b, Body.read text = .ok b ∧ Splits d b ∧ (∀ b', Splits d b' → b' = b) ∧
          b.text.toList = d) ∨
          ¬IsSplittable d ∧
            ∃ x, Body.read text = .error (.invalidCharacter x text) ∧ FailsAt d x) := by
  intro c d
  by_cases he : c = "eps".toList ∨ d = []
  · exact .inl ⟨he, if_pos he⟩
  have hr : Body.read text = (scan d).mapError (.invalidCharacter · text) := if_neg he
  have hs := ends_scan d
  refine .inr ⟨he, ?_⟩
  rw [hr]
  cases hx : scan d with
  | ok b =>
    rw [hx] at hs
    exact .inl ⟨b, rfl, hs, fun b' ↦ Splits.unique hs,
      by rw [Body.text, String.toList_ofList, hs.2]⟩
  | error x =>
    rw [hx] at hs
    exact .inr ⟨not_isSplittable_of_scan hx, x, rfl, hs⟩

end Body

end ChomskyNormalForm
