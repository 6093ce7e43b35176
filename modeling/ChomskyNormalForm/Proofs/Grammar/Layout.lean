import ChomskyNormalForm.Proofs.Grammar.Lines

/-!
The layout of a text. Empty lines, comments, blanks, the spelling of the arrow and the spread of
alternatives over lines make no difference to the grammar that is read.
-/

namespace ChomskyNormalForm

open Text

theorem Body.toOption_read_congr {s t : String} (h : compact s.toList = compact t.toList) :
    (Body.read s).toOption = (Body.read t).toOption := by
  simp only [Body.read, h]
  split
  · rfl
  · cases scan ((compact t.toList).filter (!isMark ·)) <;> rfl

namespace Grammar

variable {a b l l' p ws x y : List Char}

theorem bodiesIn_eq (x : List Char) :
    bodiesIn x = (splitAll '|' x).mapM fun piece ↦ (Body.read (.ofList piece)).toOption := by
  rw [bodiesIn, readAlternatives, toOption_mapM, String.toList_ofList]

theorem bodiesIn_compact (x : List Char) : bodiesIn (compact x) = bodiesIn x := by
  rw [bodiesIn_eq, bodiesIn_eq, ← map_compact_splitAll_eq (by decide), List.mapM_map]
  refine congrArg (List.mapM · _) (funext fun piece ↦ Body.toOption_read_congr ?_)
  rw [String.toList_ofList, String.toList_ofList, compact_compact]

theorem bodiesIn_congr (h : compact x = compact y) : bodiesIn x = bodiesIn y := by
  rw [← bodiesIn_compact x, h, bodiesIn_compact]

theorem bodiesIn_bar (x y : List Char) :
    bodiesIn (x ++ '|' :: y) = (bodiesIn x).bind fun bs ↦ (bodiesIn y).map (bs ++ ·) := by
  rw [bodiesIn_eq, bodiesIn_eq, bodiesIn_eq, splitAll_append_cons, List.mapM_append]
  cases (splitAll '|' x).mapM fun piece ↦ (Body.read (.ofList piece)).toOption with
  | none => rfl
  | some bs => cases (splitAll '|' y).mapM fun piece ↦ (Body.read (.ofList piece)).toOption <;> rfl

theorem productionsIn_singleton (l : List Char) : productionsIn [l] = productionsOn l := by
  rw [productionsIn, List.mapM_cons]
  cases productionsOn l with
  | none => rfl
  | some ps => exact congrArg some (List.append_nil ps)

theorem productionsIn_append (ls ms : List (List Char)) :
    productionsIn (ls ++ ms) = (productionsIn ls).bind fun ps ↦
    (productionsIn ms).map (ps ++ ·) := by
  rw [productionsIn, productionsIn, productionsIn, List.mapM_append]
  cases ls.mapM productionsOn with
  | none => rfl
  | some pss => cases ms.mapM productionsOn <;> simp

theorem productionsOn_congr (h : trim (withoutComment l) = trim (withoutComment l')) :
    productionsOn l = productionsOn l' := by
  rw [productionsOn, productionsOn, h]

theorem productionsOn_append (hp : IsArrowless p) (ha : IsArrow a) (hh : '#' ∉ p) (r : List Char) :
    productionsOn (p ++ (a ++ r)) = ruleIn p (spellArrows (withoutComment r)) := by
  have hcomment : withoutComment (p ++ (a ++ r)) = p ++ (a ++ withoutComment r) := by
    rw [withoutComment_append hh, withoutComment_append ha.hash_not_mem]
  -- trimming takes blanks from the outer ends of both sides, which the readers of the sides ignore
  have hdrop : IsArrowless (p.dropWhile isBlank) := hp.of_infix (List.dropWhile_suffix _).isInfix
  have hsplit := hdrop.splitArrow?_append ha ((withoutComment r).rdropWhile isBlank)
  have hne :
      spellArrows (p.dropWhile isBlank ++ (a ++ (withoutComment r).rdropWhile isBlank)) ≠ [] := by
    intro he
    rw [he] at hsplit
    exact nomatch hsplit
  have hhead : headIn (p.dropWhile isBlank) = headIn p := headIn_congr (by
    rw [trim_eq, List.dropWhile_idempotent, trim_eq])
  have hbodies : bodiesIn (spellArrows ((withoutComment r).rdropWhile isBlank)) =
      bodiesIn (spellArrows (withoutComment r)) := bodiesIn_congr (by
    rw [compact_spellArrows, compact_rdropWhile, compact_spellArrows])
  simp only [productionsOn, hcomment, trim_append_append ha.ne_nil ha.isBlank_eq_false,
    if_neg hne, hsplit, Option.bind_some, ruleIn, hhead, hbodies]

theorem productionsOn_of_hash (h : '#' ∈ p) (x y : List Char) :
    productionsOn (p ++ x) = productionsOn (p ++ y) :=
  productionsOn_congr (by rw [withoutComment_append_of_mem h, withoutComment_append_of_mem h])

theorem productionsOn_comment (h : IsSpacing ws) (x : List Char) :
    productionsOn (ws ++ '#' :: x) = some [] := by
  have hcomment : withoutComment (ws ++ '#' :: x) = ws := by
    rw [withoutComment_append h.hash_not_mem]
    exact List.append_nil ws
  simp only [productionsOn, hcomment, h.trim_eq_nil]
  rfl

theorem productionsOn_blank (h : IsSpacing ws) : productionsOn ws = some [] := by
  rw [← productionsOn_comment h []]
  refine productionsOn_congr (congrArg trim ?_)
  rw [withoutComment_append h.hash_not_mem, withoutComment_eq_self h.hash_not_mem]
  exact (List.append_nil ws).symm

theorem productionsOn_remark (l x : List Char) :
    productionsOn (l ++ '#' :: x) = productionsOn l := by
  refine productionsOn_congr (congrArg trim ?_)
  by_cases hl : '#' ∈ l
  · exact withoutComment_append_of_mem hl _
  · rw [withoutComment_append hl, withoutComment_eq_self hl]
    exact List.append_nil l

theorem productionsOn_indent (h : IsSpacing ws) (l : List Char) :
    productionsOn (ws ++ l) = productionsOn l :=
  productionsOn_congr (by rw [withoutComment_append h.hash_not_mem, h.trim_append])

theorem productionsOn_trail (h : IsSpacing ws) (l : List Char) :
    productionsOn (l ++ ws) = productionsOn l := by
  apply productionsOn_congr
  by_cases hl : '#' ∈ l
  · rw [withoutComment_append_of_mem hl]
  · rw [withoutComment_append hl, withoutComment_eq_self h.hash_not_mem, withoutComment_eq_self hl,
      h.append_trim]

theorem productionsOn_beforeArrow (hp : IsArrowless p) (ha : IsArrow a) (h : IsSpacing ws)
    (r : List Char) :
    productionsOn (p ++ ws ++ (a ++ r)) = productionsOn (p ++ (a ++ r)) := by
  by_cases hh : '#' ∈ p
  · rw [List.append_assoc]
    exact productionsOn_of_hash hh _ _
  · have hw : '#' ∉ p ++ ws := by
      rw [List.mem_append, not_or]
      exact ⟨hh, h.hash_not_mem⟩
    rw [productionsOn_append (hp.append h) ha hw, productionsOn_append hp ha hh, ruleIn, ruleIn,
      headIn_congr (h.append_trim p)]

theorem compact_withoutComment_append (h : IsSpacing ws) (x y : List Char) :
    compact (withoutComment (x ++ ws ++ y)) = compact (withoutComment (x ++ y)) := by
  by_cases hx : '#' ∈ x
  · rw [List.append_assoc, withoutComment_append_of_mem hx, withoutComment_append_of_mem hx]
  · have hw : '#' ∉ x ++ ws := by
      rw [List.mem_append, not_or]
      exact ⟨hx, h.hash_not_mem⟩
    rw [withoutComment_append hw, withoutComment_append hx, compact_append, compact_append,
      compact_append, h.compact_eq_nil, List.append_nil]

theorem productionsOn_afterArrow (hp : IsArrowless p) (ha : IsArrow a) (h : IsSpacing ws)
    (x y : List Char) :
    productionsOn (p ++ (a ++ (x ++ ws ++ y))) = productionsOn (p ++ (a ++ (x ++ y))) := by
  by_cases hh : '#' ∈ p
  · exact productionsOn_of_hash hh _ _
  · have hbodies : bodiesIn (spellArrows (withoutComment (x ++ ws ++ y))) =
        bodiesIn (spellArrows (withoutComment (x ++ y))) := bodiesIn_congr (by
      rw [compact_spellArrows, compact_spellArrows, compact_withoutComment_append h])
    rw [productionsOn_append hp ha hh, productionsOn_append hp ha hh, ruleIn, ruleIn, hbodies]

theorem productionsOn_arrow (hp : IsArrowless p) (ha : IsArrow a) (hb : IsArrow b) (r : List Char) :
    productionsOn (p ++ (b ++ r)) = productionsOn (p ++ (a ++ r)) := by
  by_cases hh : '#' ∈ p
  · exact productionsOn_of_hash hh _ _
  · rw [productionsOn_append hp ha hh, productionsOn_append hp hb hh]

theorem productionsOn_bar (hp : IsArrowless p) (ha : IsArrow a) (hh : '#' ∉ p ++ x)
    (y : List Char) :
    productionsOn (p ++ (a ++ (x ++ '|' :: y))) = (productionsOn (p ++ (a ++ x))).bind fun ps ↦
      (productionsOn (p ++ (a ++ y))).map (ps ++ ·) := by
  rw [List.mem_append, not_or] at hh
  have hcomment : withoutComment (x ++ '|' :: y) = x ++ '|' :: withoutComment y := by
    rw [withoutComment_append hh.2]
    rfl
  have hspell : spellArrows (x ++ '|' :: withoutComment y) =
      spellArrows x ++ '|' :: spellArrows (withoutComment y) := by
    rw [spellArrows_append]
    rfl
  rw [productionsOn_append hp ha hh.1, productionsOn_append hp ha hh.1,
    productionsOn_append hp ha hh.1, hcomment, hspell, withoutComment_eq_self hh.2, ruleIn, ruleIn,
    ruleIn, bodiesIn_bar]
  cases headIn p with
  | none => rfl
  | some v =>
    cases bodiesIn (spellArrows x) with
    | none => rfl
    | some bs => cases bodiesIn (spellArrows (withoutComment y)) <;> simp

/-- One change of the layout, on the lines that it touches: what stands there before and what stands
there after. Blanks behind the arrow may come in right behind it, around bars and inside bodies. -/
inductive Edit : List (List Char) → List (List Char) → Prop
  | blank {ws : List Char} : IsSpacing ws → Edit [] [ws]
  | comment {ws : List Char} (x : List Char) : IsSpacing ws → Edit [] [ws ++ '#' :: x]
  | remark (l x : List Char) : Edit [l] [l ++ '#' :: x]
  | indent {ws : List Char} (l : List Char) : IsSpacing ws → Edit [l] [ws ++ l]
  | trail {ws : List Char} (l : List Char) : IsSpacing ws → Edit [l] [l ++ ws]
  | beforeArrow {p a ws : List Char} (r : List Char) : IsArrowless p → IsArrow a → IsSpacing ws →
      Edit [p ++ (a ++ r)] [p ++ ws ++ (a ++ r)]
  | afterArrow {p a ws : List Char} (x y : List Char) : IsArrowless p → IsArrow a → IsSpacing ws →
      Edit [p ++ (a ++ (x ++ y))] [p ++ (a ++ (x ++ ws ++ y))]
  | arrow {p a b : List Char} (r : List Char) : IsArrowless p → IsArrow a → IsArrow b →
      Edit [p ++ (a ++ r)] [p ++ (b ++ r)]
  | bar {p a x : List Char} (y : List Char) : IsArrowless p → IsArrow a → '#' ∉ p ++ x →
      Edit [p ++ (a ++ (x ++ '|' :: y))] [p ++ (a ++ x), p ++ (a ++ y)]

theorem Edit.productionsIn_eq {old new : List (List Char)} (h : Edit old new) :
    productionsIn old = productionsIn new := by
  have hnil : productionsIn [] = some [] := rfl
  cases h with
  | blank hw => rw [productionsIn_singleton, productionsOn_blank hw, hnil]
  | comment x hw => rw [productionsIn_singleton, productionsOn_comment hw, hnil]
  | remark l x => rw [productionsIn_singleton, productionsIn_singleton, productionsOn_remark]
  | indent l hw => rw [productionsIn_singleton, productionsIn_singleton, productionsOn_indent hw]
  | trail l hw => rw [productionsIn_singleton, productionsIn_singleton, productionsOn_trail hw]
  | beforeArrow r hp ha hw =>
    rw [productionsIn_singleton, productionsIn_singleton, productionsOn_beforeArrow hp ha hw]
  | afterArrow x y hp ha hw =>
    rw [productionsIn_singleton, productionsIn_singleton, productionsOn_afterArrow hp ha hw]
  | arrow r hp ha hb =>
    rw [productionsIn_singleton, productionsIn_singleton, productionsOn_arrow hp ha hb]
  | @bar p a x y hp ha hh =>
    have hpair : [p ++ (a ++ x), p ++ (a ++ y)] = [p ++ (a ++ x)] ++ [p ++ (a ++ y)] := rfl
    rw [hpair, productionsIn_append, productionsIn_singleton, productionsIn_singleton,
      productionsIn_singleton, productionsOn_bar hp ha hh]

/-- One change of the layout somewhere in a text, given by its lines. -/
def Relaid (ls ms : List (List Char)) : Prop :=
  ∃ u old new v, Edit old new ∧ ls = u ++ (old ++ v) ∧ ms = u ++ (new ++ v)

theorem Relaid.productionsIn_eq {ls ms : List (List Char)} (h : Relaid ls ms) :
    productionsIn ls = productionsIn ms := by
  obtain ⟨u, old, new, v, he, rfl, rfl⟩ := h
  rw [productionsIn_append, productionsIn_append, productionsIn_append, productionsIn_append,
    he.productionsIn_eq]

theorem productionsIn_of_eqvGen {ls ms : List (List Char)} (h : Relation.EqvGen Relaid ls ms) :
    productionsIn ls = productionsIn ms := by
  induction h with
  | rel _ _ h => exact h.productionsIn_eq
  | refl _ => rfl
  | symm _ _ _ ih => exact ih.symm
  | trans _ _ _ _ _ ih₁ ih₂ => exact ih₁.trans ih₂

/-- Texts whose lines differ in layout alone are read as one grammar, or neither is read. -/
theorem readText_ignores_layout {t t' : String}
    (h : Relation.EqvGen Relaid (lines t.toList) (lines t'.toList)) (start : Json) (g : Grammar) :
    readText t start = .ok g ↔ readText t' start = .ok g := by
  rw [← toOption_eq_some, ← toOption_eq_some, toOption_readText, toOption_readText,
    productionsIn_of_eqvGen h]

def dense : String := "S -> aS|A\nA->b # last"

def spread : String := "# words\u2028S -> aS\r\nS -> A\nA \t→b # last"

theorem readText_ignores_layout_spread :
    Relation.EqvGen Relaid (lines dense.toList) (lines spread.toList) ∧
    ∃ g, readText dense .null = .ok g ∧ readText spread .null = .ok g := by
  have hs : IsArrowless "S ".toList := by rintro a (_ | _) <;> decide
  have ha : IsArrowless "A".toList := by rintro a (_ | _) <;> decide
  have hblank : IsSpacing [' '] := List.forall_mem_singleton.2 rfl
  have htab : IsSpacing [' ', '\t'] := List.forall_mem_cons.2 ⟨rfl, List.forall_mem_singleton.2 rfl⟩
  have hbar : Relaid ["S -> aS|A".toList, "A->b # last".toList]
      ["S -> aS".toList, "S ->A".toList, "A->b # last".toList] :=
    ⟨[], _, _, _, .bar (x := " aS".toList) "A".toList hs .signs (by decide), rfl, rfl⟩
  have hafter : Relaid ["S -> aS".toList, "S ->A".toList, "A->b # last".toList]
      ["S -> aS".toList, "S -> A".toList, "A->b # last".toList] :=
    ⟨["S -> aS".toList], _, _, _, .afterArrow [] "A".toList hs .signs hblank, rfl, rfl⟩
  have harrow : Relaid ["S -> aS".toList, "S -> A".toList, "A->b # last".toList]
      ["S -> aS".toList, "S -> A".toList, "A→b # last".toList] :=
    ⟨["S -> aS".toList, "S -> A".toList], _, _, [],
      .arrow "b # last".toList ha .signs .arrow, rfl, rfl⟩
  have hbefore : Relaid ["S -> aS".toList, "S -> A".toList, "A→b # last".toList]
      ["S -> aS".toList, "S -> A".toList, "A \t→b # last".toList] :=
    ⟨["S -> aS".toList, "S -> A".toList], _, _, [],
      .beforeArrow "b # last".toList ha .arrow htab, rfl, rfl⟩
  have hcomment : Relaid ["S -> aS".toList, "S -> A".toList, "A \t→b # last".toList]
      ["# words".toList, "S -> aS".toList, "S -> A".toList, "A \t→b # last".toList] :=
    ⟨[], _, _, _, .comment " words".toList (List.forall_mem_nil _ : IsSpacing []), rfl, rfl⟩
  have h : Relation.EqvGen Relaid (lines dense.toList) (lines spread.toList) :=
    .trans _ _ _ (.rel _ _ hbar) (.trans _ _ _ (.rel _ _ hafter) (.trans _ _ _ (.rel _ _ harrow)
      (.trans _ _ _ (.rel _ _ hbefore) (.rel _ _ hcomment))))
  obtain ⟨g, hg⟩ : ∃ g, readText dense .null = .ok g := ⟨_, rfl⟩
  exact ⟨h, g, hg, (readText_ignores_layout h .null g).1 hg⟩

end Grammar

end ChomskyNormalForm
