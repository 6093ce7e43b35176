import ChomskyNormalForm.Grammar.Notation
import ChomskyNormalForm.Proofs.Symbol.Reader

namespace ChomskyNormalForm.Grammar

open Text

variable {g h : Grammar} {v : Symbol} {b : Body} {bs : List Body}
  {f : List Body → List Body} {c : Char}

theorem mem_displayOrder : v ∈ g.displayOrder ↔ v ∈ g := by
  unfold displayOrder
  split
  · rename_i hs
    simp only [List.mem_cons, List.mem_filter, mem_sortedHeads, decide_eq_true_eq]
    constructor
    · rintro (rfl | h)
      · exact hs
      · exact h.1
    · exact fun h ↦ (eq_or_ne v g.start).imp_right fun hne ↦ ⟨h, hne⟩
  · exact mem_sortedHeads

theorem IsLegal.exists_displayOrder (hg : g.IsLegal) : ∃ vs, g.displayOrder = g.start :: vs :=
  ⟨_, if_pos hg.start_mem⟩

theorem IsLegal.of_agrees (hg : g.IsLegal) (ha : h.agrees g = true) : h.IsLegal := by
  obtain ⟨hs, hv⟩ := agrees_iff.1 ha
  refine ⟨hs ▸ (hv _).1.2 (hs ▸ hg.start_mem), fun v hm ↦ hg.head v ((hv v).1.1 hm),
    fun v b hb ↦ hg.body v b (((hv v).2 b).1 hb), fun v u hu ↦ ?_⟩
  obtain ⟨b, hb, hu⟩ := hu
  exact (hv u).1.2 (hg.closed v u ⟨b, ((hv v).2 b).1 hb, hu⟩)

def withBodies (f : List Body → List Body) (g : Grammar) : Grammar :=
  ⟨g.start, .ofEntries (g.displayOrder.map fun v ↦ (v, f (g.bodies v)))⟩

theorem mem_withBodies : v ∈ g.withBodies f ↔ v ∈ g := by
  rw [mem_iff, withBodies, Rules.mem_ofEntries]
  simp [mem_displayOrder]

theorem mem_bodies_withBodies : b ∈ (g.withBodies f).bodies v ↔ v ∈ g ∧ b ∈ f (g.bodies v) := by
  rw [bodies, withBodies, Rules.mem_bodies_ofEntries]
  simp only [List.mem_map, mem_displayOrder, exists_exists_and_eq_and]
  constructor
  · rintro ⟨u, hu, rfl, hb⟩
    exact ⟨hu, hb⟩
  · exact fun h ↦ ⟨v, h.1, rfl, h.2⟩

theorem agrees_withBodies_iff :
    (g.withBodies f).agrees g = true ↔ ∀ v ∈ g, ∀ b, b ∈ f (g.bodies v) ↔ b ∈ g.bodies v := by
  rw [agrees_iff]
  simp only [mem_withBodies, mem_bodies_withBodies, true_and]
  constructor
  · exact fun h v hv b ↦ (and_iff_right hv).symm.trans ((h.2 v) b)
  · refine fun h ↦ ⟨rfl, fun v b ↦ ⟨fun hb ↦ (h v hb.1 b).1 hb.2, fun hb ↦ ?_⟩⟩
    exact ⟨mem_of_mem_bodies hb, (h v (mem_of_mem_bodies hb) b).2 hb⟩

theorem mem_map_reread_iff : (∀ b, b ∈ bs.map Body.reread ↔ b ∈ bs) ↔ Body.eps ∉ bs := by
  constructor
  · intro h he
    obtain ⟨b, -, hb⟩ := List.mem_map.1 ((h _).2 he)
    unfold Body.reread at hb
    split at hb
    · exact absurd hb (by decide)
    · rename_i hne
      exact hne hb
  · intro h b
    have hmap : bs.map Body.reread = bs.map id :=
      List.map_congr_left fun b hb ↦ if_neg (ne_of_mem_of_not_mem hb h)
    rw [hmap, List.map_id]

/-- What the text of bodies is read as: no bodies at all read as the empty word. -/
def respelled (bs : List Body) : List Body := if bs = [] then [Body.epsilon] else bs.map Body.reread

theorem mem_respelled_iff : (∀ b, b ∈ respelled bs ↔ b ∈ bs) ↔ bs ≠ [] ∧ Body.eps ∉ bs := by
  unfold respelled
  split
  · rename_i hbs
    subst hbs
    exact iff_of_false (fun h ↦ List.not_mem_nil ((h _).1 List.mem_cons_self)) fun h ↦ h.1 rfl
  · rename_i hbs
    rw [mem_map_reread_iff, and_iff_right hbs]

theorem trim_text (hv : v.IsLegal) : trim v.text.toList = v.text.toList := by
  have hplain : ∀ c ∈ v.text.toList, isBlank c = false :=
    fun c hc ↦ IsPlain.isBlank_eq_false (.inl (hv.isAlphanum c hc))
  exact trim_eq_self (fun c hc ↦ hplain c (List.mem_of_head? hc)) fun c hc ↦
    hplain c (List.mem_of_getLast? hc)

theorem readHead_text (hv : v.isVar = true ∧ v.IsLegal) : readHead (.string v.text) = .ok v := by
  cases v with
  | var name =>
    have htrim : trim name.toList = name.toList := trim_text (v := .var name) hv.2
    have hne : name.toList ≠ [] := hv.2.text_ne_nil
    have hname : Symbol.isVarName name.toList = true := hv.2
    simp only [readHead, Symbol.text, htrim, if_neg hne, hname, if_true, String.ofList_toList]
  | terminal a => cases hv.1
  | epsilon => cases hv.1
  | foreign t => cases hv.1

theorem readAlternatives_text (hb : b.IsLegal) : readAlternatives b.text = .ok [b.reread] := by
  have hplain := hb.isPlain
  have hbar : '|' ∉ b.chars := fun hm ↦ (hplain _ hm).ne (by decide) rfl
  have hcompact : compact b.chars = b.chars :=
    compact_eq_self fun c hc ↦ (hplain c hc).isBlank_eq_false
  rw [readAlternatives, Body.text, String.toList_ofList, splitAll_of_not_mem hbar]
  refine mapM_eq_ok_of_map_eq (m := [b]) (k := compact) (c := Body.chars) (fun d hd p hp ↦ ?_) ?_
  · rw [List.mem_singleton.1 hd] at hp ⊢
    exact Body.read_of_compact_eq hb (by rw [String.toList_ofList, hp])
  · rw [List.map_singleton, List.map_singleton, hcompact]

theorem readBodies_texts {head : Symbol} (h : ∀ b ∈ bs, b.IsLegal) :
    readBodies head (.array (bs.map fun b ↦ .string b.text)) = .ok (bs.map Body.reread) := by
  have hm : (bs.map fun b ↦ Json.string b.text).mapM (readItem head) =
      .ok (bs.map fun b ↦ [b.reread]) := by
    refine mapM_eq_ok_of_map_eq (k := id) (fun b hb j hj ↦ ?_) (List.map_id _)
    subst hj
    exact readAlternatives_text (h b hb)
  rw [readBodies, hm, Except.map, ← List.flatMap_def, List.map_eq_flatMap]

def alternatives (bs : List Body) : List Char :=
  if bs = [] then [] else ' ' :: [' ', '|', ' '].intercalate (bs.map Body.chars)

theorem readBodies_alternatives {head : Symbol} (h : ∀ b ∈ bs, b.IsLegal) :
    readBodies head (.string (.ofList (alternatives bs))) = .ok (respelled bs) := by
  rw [readBodies, readAlternatives, String.toList_ofList, alternatives, respelled]
  split
  · rfl
  · rename_i hbs
    refine mapM_eq_ok_of_map_eq (k := compact) (c := Body.chars) (fun b hb p hp ↦ ?_) ?_
    · exact Body.read_of_compact_eq (h b hb) (by rw [String.toList_ofList, hp])
    · have hne : bs.map Body.chars ≠ [] := fun he ↦ hbs (List.map_eq_nil_iff.1 he)
      rw [map_compact_splitAll (by decide) (by decide) hne, List.map_map]
      · exact List.map_congr_left fun b hb ↦ compact_eq_self fun c hc ↦
          ((h b hb).isPlain c hc).isBlank_eq_false
      · intro l hl
        obtain ⟨b, hb, rfl⟩ := List.mem_map.1 hl
        exact fun hm ↦ ((h b hb).isPlain _ hm).ne (by decide) rfl

theorem mem_alternatives (h : ∀ b ∈ bs, b.IsLegal) (hc : c ∈ alternatives bs) :
    IsPlain c ∨ c = ' ' ∨ c = '|' := by
  unfold alternatives at hc
  split at hc
  · exact nomatch hc
  · rcases List.mem_cons.1 hc with rfl | hc
    · exact .inr (.inl rfl)
    · rcases mem_or_mem_of_mem_intercalate hc with hc | ⟨l, hl, hc⟩
      · simp only [List.mem_cons, List.not_mem_nil, or_false] at hc
        exact .inr (hc.elim .inl fun hc ↦ hc.symm.imp id id)
      · obtain ⟨b, hb, rfl⟩ := List.mem_map.1 hl
        exact .inl ((h b hb).isPlain c hc)

def stem (v : Symbol) (bs : List Body) : List Char :=
  v.text.toList ++ [' '] ++ '-' :: '>' :: alternatives bs

def line (g : Grammar) (v : Symbol) : List Char :=
  v.text.toList ++ " -> ".toList ++ [' ', '|', ' '].intercalate ((g.bodies v).map Body.chars)

theorem toList_text : g.text.toList = ['\n'].intercalate (g.displayOrder.map g.line) := by
  have hsep : " | ".toList = [' ', '|', ' '] := rfl
  have hbreak : "\n".toList = ['\n'] := rfl
  rw [text, String.toList_intercalate, rows, rowsIn, List.map_map, List.map_map, hbreak]
  congr 1
  refine List.map_congr_left fun v _ ↦ ?_
  simp only [Function.comp_apply, line, String.toList_append, String.toList_intercalate,
    List.map_map, hsep]
  congr 2
  exact List.map_congr_left fun b _ ↦ String.toList_ofList

theorem line_eq : g.line v = if g.bodies v = [] then stem v [] ++ [' ']
    else stem v (g.bodies v) := by
  have harrow : " -> ".toList = [' ', '-', '>', ' '] := rfl
  rw [line, stem, stem, harrow]
  split
  · rename_i h
    simp [h, alternatives]
  · rename_i h
    simp [h, alternatives]

theorem mem_stem (hv : v.IsLegal) (h : ∀ b ∈ bs, b.IsLegal) (hc : c ∈ stem v bs) :
    IsPlain c ∨ c ∈ [' ', '-', '>', '|'] := by
  simp only [stem, List.append_assoc, List.mem_append, List.mem_cons, List.not_mem_nil,
    or_false] at hc ⊢
  rcases hc with hc | rfl | rfl | rfl | hc
  · exact .inl (.inl (hv.isAlphanum c hc))
  · exact .inr (.inl rfl)
  · exact .inr (.inr (.inl rfl))
  · exact .inr (.inr (.inr (.inl rfl)))
  · exact (mem_alternatives h hc).imp_right fun hc ↦ hc.imp_right fun hc ↦ .inr (.inr hc)

theorem mem_line (hv : v.IsLegal) (h : ∀ b ∈ g.bodies v, b.IsLegal) (hc : c ∈ g.line v) :
    IsPlain c ∨ c ∈ [' ', '-', '>', '|'] := by
  rw [line_eq] at hc
  split at hc
  · rcases List.mem_append.1 hc with hc | hc
    · exact mem_stem hv (by simp) hc
    · rw [List.mem_singleton.1 hc]
      exact .inr List.mem_cons_self
  · exact mem_stem hv h hc

theorem trim_stem (hv : v.IsLegal) (h : ∀ b ∈ bs, b.IsLegal) : trim (stem v bs) = stem v bs := by
  refine trim_eq_self (fun c hc ↦ ?_) fun c hc ↦ ?_
  · obtain ⟨d, ds, hd⟩ := List.exists_cons_of_ne_nil hv.text_ne_nil
    have ha := hv.isAlphanum
    rw [stem, hd] at hc
    rw [hd] at ha
    obtain rfl : d = c := Option.some.inj hc
    exact IsPlain.isBlank_eq_false (.inl (ha d List.mem_cons_self))
  · rw [stem, List.getLast?_append, List.getLast?_cons_cons] at hc
    unfold alternatives at hc
    split at hc
    · obtain rfl : '>' = c := Option.some.inj hc
      decide
    · rename_i hbs
      have hne : bs.map Body.chars ≠ [] := fun he ↦ hbs (List.map_eq_nil_iff.1 he)
      obtain ⟨l, hl, hlne, hlast⟩ :=
        exists_getLast?_intercalate (s := [' ', '|', ' ']) hne fun l hl ↦ by
        obtain ⟨b, hb, rfl⟩ := List.mem_map.1 hl
        exact (h b hb).chars_ne_nil
      obtain ⟨b, hb, rfl⟩ := List.mem_map.1 hl
      have hsome : b.chars.getLast?.isSome = true := List.getLast?_isSome.2 hlne
      rw [List.getLast?_cons_cons, ← List.singleton_append, List.getLast?_append, hlast,
        Option.or_of_isSome hsome, Option.or_of_isSome hsome] at hc
      exact ((h b hb).isPlain c (List.mem_of_getLast? hc)).isBlank_eq_false

theorem readLine_line {n : Nat} (hv : v.isVar = true ∧ v.IsLegal)
    (h : ∀ b ∈ g.bodies v, b.IsLegal) :
    readLine (g.line v) n =
    .ok (some (.string v.text, .string (.ofList (alternatives (g.bodies v))))) := by
  have hhash : '#' ∉ g.line v := fun hm ↦ absurd (mem_line hv.2 h hm) (by decide)
  have htrim : trim (g.line v) = stem v (g.bodies v) := by
    rw [line_eq]
    split
    · rename_i hb
      rw [trim_concat (by decide), hb, trim_stem hv.2 (by simp)]
    · exact trim_stem hv.2 h
  have harrow : '→' ∉ stem v (g.bodies v) := fun hm ↦ absurd (mem_stem hv.2 h hm) (by decide)
  have hne : stem v (g.bodies v) ≠ [] := by simp [stem]
  have hhead : '-' ∉ v.text.toList ++ [' '] := by
    rw [List.mem_append, not_or]
    exact ⟨fun hm ↦ absurd (hv.2.isAlphanum _ hm) (by decide), by decide⟩
  have hside : ¬['-', '>'] <:+: v.text.toList ++ [' '] :=
    fun hi ↦ hhead (hi.subset List.mem_cons_self)
  have hname : trim (v.text.toList ++ [' ']) = v.text.toList := by
    rw [trim_concat (by decide), trim_text hv.2]
  rw [readLine, withoutComment_eq_self hhash, htrim, spellArrows_eq_self harrow]
  simp only [if_neg hne]
  simp only [stem, splitArrow?_append hside, hname, if_neg hv.2.text_ne_nil, String.ofList_toList]

theorem lines_text (hg : g.IsLegal) : lines g.text.toList = g.displayOrder.map g.line := by
  rw [toList_text]
  refine lines_intercalate fun l hl ↦ ?_
  obtain ⟨v, hv, rfl⟩ := List.mem_map.1 hl
  refine ⟨by simp [line], fun c hc ↦ ?_⟩
  rcases mem_line (hg.head v (mem_displayOrder.1 hv)).2 (hg.body v) hc with hc | hc
  · exact hc.isLineBreak_eq_false
  · have hsigns : ∀ d ∈ [' ', '-', '>', '|'], isLineBreak d = false := by
      simp only [List.forall_mem_cons]
      exact ⟨rfl, rfl, rfl, rfl, fun _ hd ↦ absurd hd List.not_mem_nil⟩
    exact hsigns c hc

theorem assemble_map {rhs : Symbol → Json} (hg : g.IsLegal)
    (hr : ∀ v ∈ g, readBodies v (rhs v) = .ok (f (g.bodies v))) :
    assemble g.start (g.displayOrder.map fun v ↦ (.string v.text, rhs v)) = .ok h ↔
      (g.withBodies f).check = .ok () ∧ h = g.withBodies f := by
  have hm : (g.displayOrder.map fun v ↦ (Json.string v.text, rhs v)).mapM readEntry =
      .ok (g.displayOrder.map fun v ↦ (v, f (g.bodies v))) := by
    refine mapM_eq_ok_of_map_eq (k := id) (fun v hv e he ↦ ?_) (List.map_id _)
    obtain rfl : e = (.string v.text, rhs v) := he
    rw [readEntry, readHead_text (hg.head v (mem_displayOrder.1 hv)), ok_bind,
      hr v (mem_displayOrder.1 hv)]
    rfl
  obtain ⟨vs, hvs⟩ := hg.exists_displayOrder
  have hne : ¬(g.displayOrder.map fun v ↦ (v, f (g.bodies v))).isEmpty = true := by simp [hvs]
  have hcheck : assemble g.start (g.displayOrder.map fun v ↦ (.string v.text, rhs v)) =
      (g.withBodies f).check >>= fun _ ↦ .ok (g.withBodies f) := by
    rw [assemble, hm, ok_bind, if_neg hne]
    rfl
  rw [hcheck, bind_unit_eq_ok]
  exact and_congr_right fun _ ↦ ⟨fun h ↦ (Except.ok.inj h).symm, fun h ↦ congrArg Except.ok h.symm⟩

/-- What is read has to be legal, and it is when it agrees with a legal grammar. -/
theorem exists_assemble_agrees {rhs : Symbol → Json} (hg : g.IsLegal)
    (hr : ∀ v ∈ g, readBodies v (rhs v) = .ok (f (g.bodies v))) :
    (∃ h, assemble g.start (g.displayOrder.map fun v ↦ (.string v.text, rhs v)) = .ok h ∧
      h.agrees g = true) ↔
      ∀ v ∈ g, ∀ b, b ∈ f (g.bodies v) ↔ b ∈ g.bodies v := by
  rw [← agrees_withBodies_iff]
  simp only [assemble_map hg hr]
  constructor
  · rintro ⟨h, ⟨-, rfl⟩, ha⟩
    exact ha
  · exact fun ha ↦ ⟨_, ⟨check_eq_ok_iff.2 (hg.of_agrees ha), rfl⟩, ha⟩

theorem readStart_text (hv : v.isVar = true ∧ v.IsLegal) : readStart (.string v.text) = .ok v := by
  have hne : v.text ≠ "" := fun h ↦ hv.2.text_ne_nil (by rw [h]; rfl)
  rw [readStart, if_neg hne, readHead_text hv]

theorem readText_text (hg : g.IsLegal) : readText g.text .null = assemble g.start
    (g.displayOrder.map fun v ↦ (.string v.text,
      .string (.ofList (alternatives (g.bodies v))))) := by
  obtain ⟨rows, hrows⟩ : ∃ rows, rows = g.displayOrder.map fun v ↦
    (Json.string v.text, Json.string (.ofList (alternatives (g.bodies v)))) := ⟨_, rfl⟩
  have hm : ((lines g.text.toList).zipIdx 1).mapM (Function.uncurry readLine) =
      .ok (rows.map some) := by
    rw [hrows, List.map_map]
    refine mapM_eq_ok_of_map_eq (k := Prod.fst) (fun v hv p hp ↦ ?_)
      ((List.zipIdx_map_fst 1 _).trans (lines_text hg))
    obtain ⟨l, n⟩ := p
    obtain rfl : l = g.line v := hp
    rw [Function.uncurry_apply_pair, readLine_line (hg.head v (mem_displayOrder.1 hv)) (hg.body v),
      Function.comp_apply]
  have hstart : readStart (.string g.start.text) = .ok g.start :=
    readStart_text (hg.head _ hg.start_mem)
  obtain ⟨vs, hvs⟩ := hg.exists_displayOrder
  rw [readText]
  change ((lines g.text.toList).zipIdx 1).mapM (Function.uncurry readLine) >>= _ = _
  rw [hm, ok_bind, List.filterMap_map, Function.id_comp, List.filterMap_some, hrows, hvs,
    List.map_cons]
  exact congrArg (· >>= fun s ↦ assemble s _) hstart

theorem read_toJson (hg : g.IsLegal) :
    read (g.toJson.field "start") (g.toJson.field "rules") =
    assemble g.start (g.displayOrder.map fun v ↦
      (.string v.text, .array ((g.bodies v).map fun b ↦ .string b.text))) := by
  have hstart : g.toJson.field "start" = .string g.start.text := rfl
  have hrules : g.toJson.field "rules" = .object
      (g.displayOrder.map fun v ↦ (.string v.text,
        .array ((g.bodies v).map fun b ↦ .string b.text))) := by
    have hrow : g.toJson.field "rules" =
        .record (g.rows.map fun row ↦ (row.1, .array (row.2.map .string))) := rfl
    simp only [hrow, Json.record, rows, rowsIn, List.map_map]
    refine congrArg Json.object (List.map_congr_left fun v _ ↦ ?_)
    simp only [Function.comp_apply, List.map_map]
    rfl
  rw [hstart, hrules, read, readStart_text (hg.head _ hg.start_mem)]
  rfl

theorem exists_readText_agrees (hg : g.IsLegal) :
    (∃ h, readText g.text .null = .ok h ∧ h.agrees g = true) ↔
    (∀ v ∈ g, g.bodies v ≠ []) ∧ ∀ v, Body.eps ∉ g.bodies v := by
  rw [readText_text hg, exists_assemble_agrees hg fun v _ ↦ readBodies_alternatives (hg.body v)]
  simp only [mem_respelled_iff]
  constructor
  · exact fun h ↦ ⟨fun v hv ↦ (h v hv).1, fun v hb ↦ (h v (mem_of_mem_bodies hb)).2 hb⟩
  · exact fun h v hv ↦ ⟨h.1 v hv, h.2 v⟩

theorem exists_read_toJson_agrees (hg : g.IsLegal) :
    (∃ h, read (g.toJson.field "start") (g.toJson.field "rules") = .ok h ∧ h.agrees g = true) ↔
      ∀ v, Body.eps ∉ g.bodies v := by
  rw [read_toJson hg, exists_assemble_agrees hg fun v _ ↦ readBodies_texts (hg.body v)]
  simp only [mem_map_reread_iff]
  exact ⟨fun h v hb ↦ h v (mem_of_mem_bodies hb) hb, fun h v _ ↦ h v⟩

/-- The text of a grammar reads back as a grammar that agrees with it unless a variable has no
bodies or a body is a spelling of the empty word; as JSON only the latter stands in the way. -/
theorem renderings_read_back (hc : g.check = .ok ()) :
    ((∃ h, readText g.text .null = .ok h ∧ h.agrees g = true) ↔
      (∀ v ∈ g, g.bodies v ≠ []) ∧
      ∀ v, [.terminal "e", .terminal "p", .terminal "s"] ∉ g.bodies v) ∧
    ((∃ h, read (g.toJson.field "start") (g.toJson.field "rules") = .ok h ∧ h.agrees g = true) ↔
      ∀ v, [.terminal "e", .terminal "p", .terminal "s"] ∉ g.bodies v) := by
  have hg := check_eq_ok_iff.1 hc
  exact ⟨exists_readText_agrees hg, exists_read_toJson_agrees hg⟩

def sparse : Grammar :=
  ⟨.var "S", .ofEntries [(.var "S", [[.terminal "a", .var "A1", .terminal "b"], [.epsilon]]),
    (.var "A1", [])]⟩

theorem renderings_read_back_sparse : sparse.check = .ok () ∧
    (¬∃ h, readText sparse.text .null = .ok h ∧ h.agrees sparse = true) ∧
    ∃ h, read (sparse.toJson.field "start") (sparse.toJson.field "rules") = .ok h ∧
    h.agrees sparse = true := by
  have h := renderings_read_back (g := sparse) rfl
  refine ⟨rfl, fun hr ↦ (h.1.1 hr).1 (.var "A1") (by decide) rfl, h.2.2 fun v hb ↦ ?_⟩
  have hall : [.terminal "e", .terminal "p", .terminal "s"] ∉ sparse.rules.allBodies := by decide
  exact hall (Rules.mem_allBodies.2 ⟨v, hb⟩)

end ChomskyNormalForm.Grammar
