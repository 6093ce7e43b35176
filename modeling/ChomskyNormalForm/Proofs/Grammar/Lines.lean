import ChomskyNormalForm.Proofs.Grammar.Drafts
import ChomskyNormalForm.Proofs.Grammar.Entries

/-!
What the lines of a text contribute to the grammar that is read from it. A text is read as the
productions on its lines, taken in order; nothing else of it counts.
-/

namespace ChomskyNormalForm

section Outcomes

variable {ε α β γ : Type}

theorem toOption_bind (x : Except ε α) (f : α → Except ε β) :
    (x >>= f).toOption = x.toOption.bind fun a ↦ (f a).toOption := by
  cases x <;> rfl

theorem toOption_eq_some {x : Except ε α} {a : α} : x.toOption = some a ↔ x = .ok a := by
  cases x with
  | error e => exact ⟨nofun, nofun⟩
  | ok b =>
    exact ⟨fun h ↦ congrArg Except.ok (Option.some.inj h), fun h ↦ congrArg some (Except.ok.inj h)⟩

theorem toOption_mapM (f : α → Except ε β) (l : List α) :
    (l.mapM f).toOption = l.mapM fun a ↦ (f a).toOption := by
  induction l with
  | nil => rfl
  | cons a l ih =>
    rw [List.mapM_cons, List.mapM_cons, ← ih]
    cases f a with
    | error e => rfl
    | ok b => cases l.mapM f <;> rfl

theorem mapM_bind (f : α → Option β) (g : β → Option γ) (l : List α) :
    l.mapM (fun a ↦ (f a).bind g) = (l.mapM f).bind (·.mapM g) := by
  induction l with
  | nil => rfl
  | cons a l ih =>
    rw [List.mapM_cons, List.mapM_cons, ih]
    cases f a with
    | none => rfl
    | some b =>
      cases l.mapM f with
      | none => cases hb : g b <;> simp [hb]
      | some bs => simp [List.mapM_cons]

theorem mapM_flatten_cons (f : α → Option (List β)) (a : α) (l : List α) :
    ((a :: l).mapM f).map List.flatten = (f a).bind fun bs ↦
    ((l.mapM f).map List.flatten).map (bs ++ ·) := by
  rw [List.mapM_cons]
  cases f a with
  | none => rfl
  | some bs => cases l.mapM f <;> rfl

theorem forall_mem_of_mapM {f : α → Option β} {P : β → Prop}
    (hf : ∀ a b, f a = some b → P b) {l : List α} {bs : List β} (h : l.mapM f = some bs) :
    ∀ b ∈ bs, P b := by
  induction l generalizing bs with
  | nil =>
    obtain rfl := Option.some.inj h
    exact List.forall_mem_nil _
  | cons a l ih =>
    rw [List.mapM_cons] at h
    obtain ⟨b, hb, h⟩ := Option.bind_eq_some_iff.1 h
    obtain ⟨cs, hcs, h⟩ := Option.bind_eq_some_iff.1 h
    obtain rfl := Option.some.inj h
    exact List.forall_mem_cons.2 ⟨hf a b hb, ih hcs⟩

end Outcomes

namespace Rules

variable {es : List (Symbol × List Body)} {bs : List Body}

def productionsOf (es : List (Symbol × List Body)) : List Production :=
  es.flatMap fun e ↦ e.2.map (⟨e.1, ·⟩)

def ofProductions (ps : List Production) : Rules Symbol :=
  ofEntries (ps.map fun p ↦ (p.head, [p.body]))

theorem foldl_extend_singletons (r : Rules Symbol) (v : Symbol) (hbs : bs ≠ []) :
    (bs.map fun b ↦ (v, [b])).foldl (fun r e ↦ r.extend e.1 e.2) r = r.extend v bs := by
  have hmore : ∀ (cs ds : List Body),
      (cs.map fun b ↦ (v, [b])).foldl (fun r e ↦ r.extend e.1 e.2) (r.extend v ds) =
      r.extend v (ds ++ cs) := by
    intro cs
    induction cs with
    | nil => exact fun ds ↦ by rw [List.append_nil]; rfl
    | cons c cs ih =>
      exact fun ds ↦ by
        rw [List.map_cons, List.foldl_cons, extend_extend, ih, List.append_assoc]; rfl
  obtain ⟨b, bs, rfl⟩ := List.exists_cons_of_ne_nil hbs
  exact hmore bs [b]

theorem ofEntries_eq_ofProductions (h : ∀ e ∈ es, e.2 ≠ []) :
    ofEntries es = ofProductions (productionsOf es) := by
  rw [ofProductions, ofEntries, ofEntries]
  generalize empty = r
  induction es generalizing r with
  | nil => rfl
  | cons e es ih =>
    rw [List.forall_mem_cons] at h
    have hcons : productionsOf (e :: es) = e.2.map (⟨e.1, ·⟩) ++ productionsOf es := rfl
    rw [List.foldl_cons, ih h.2, hcons, List.map_append, List.foldl_append, List.map_map]
    exact congrArg (List.foldl _ · _) (foldl_extend_singletons r e.1 h.1).symm

end Rules

namespace Grammar

open Text

variable {p q : List Char} {s : String} {bs : List Body} {e : String × String}
  {r : Symbol × List Body}

def headIn (lhs : List Char) : Option Symbol := (readHead (.string (.ofList lhs))).toOption

def bodiesIn (rhs : List Char) : Option (List Body) := (readAlternatives (.ofList rhs)).toOption

def ruleIn (lhs rhs : List Char) : Option (List Production) :=
  (headIn lhs).bind fun v ↦ (bodiesIn rhs).map (·.map (⟨v, ·⟩))

def productionsOn (line : List Char) : Option (List Production) :=
  let cleaned := spellArrows (trim (withoutComment line))
  if cleaned = [] then some [] else (splitArrow? cleaned).bind fun (lhs, rhs) ↦ ruleIn lhs rhs

def productionsIn (lines : List (List Char)) : Option (List Production) :=
  (lines.mapM productionsOn).map List.flatten

/-- The grammar that is made of productions, if it passes the check. The first left-hand side is the
start if none is given. -/
def ofProductions? (start : Json) : List Production → Option Grammar
  | [] => none
  | p :: ps =>
    (if start.isGiven then (readStart start).toOption else some p.head).bind fun v ↦
      let g : Grammar := ⟨v, .ofProductions (p :: ps)⟩
      g.check.toOption.map fun _ ↦ g

def entryOn (line : List Char) : Option (Option (String × String)) :=
  let cleaned := spellArrows (trim (withoutComment line))
  if cleaned = [] then some none
  else (splitArrow? cleaned).bind fun (lhs, rhs) ↦
    if trim lhs = [] then none else some (some (.ofList (trim lhs), .ofList rhs))

def textEntry (e : String × String) : Json × Json := (.string e.1, .string e.2)

theorem toOption_readLine (line : List Char) (n : Nat) :
    (readLine line n).toOption = (entryOn line).map (·.map textEntry) := by
  simp only [readLine, entryOn]
  split
  · rfl
  · cases splitArrow? (spellArrows (trim (withoutComment line))) with
    | none => rfl
    | some e =>
      simp only [Option.bind_some]
      split <;> rfl

theorem toOption_readLines (lines : List (List Char)) (k : Nat) :
    ((lines.zipIdx k).mapM fun e ↦ readLine e.1 e.2).toOption =
      (lines.mapM entryOn).map (·.map (·.map textEntry)) := by
  rw [toOption_mapM]
  induction lines generalizing k with
  | nil => rfl
  | cons line lines ih =>
    rw [List.zipIdx_cons, List.mapM_cons, List.mapM_cons, ih, toOption_readLine]
    cases entryOn line with
    | none => rfl
    | some o => cases lines.mapM entryOn <;> rfl

def ruleOf (e : String × String) : Option (Symbol × List Body) := (readEntry (textEntry e)).toOption

theorem ruleOf_eq (e : String × String) :
    ruleOf e = (readHead (.string e.1)).toOption.bind fun v ↦
    (readAlternatives e.2).toOption.map (v, ·) := by
  rw [ruleOf, readEntry, textEntry]
  cases readHead (.string e.1) with
  | error f => rfl
  | ok v =>
    change (readAlternatives e.2 >>= fun bs ↦ .ok (v, bs)).toOption = _
    cases readAlternatives e.2 <;> rfl

theorem readAlternatives_ne_nil (h : readAlternatives s = .ok bs) : bs ≠ [] := by
  obtain ⟨q, qs, hq⟩ := List.exists_cons_of_ne_nil (splitAll_ne_nil '|' s.toList)
  rw [readAlternatives, hq, List.mapM_cons] at h
  obtain ⟨b, -, h⟩ := bind_eq_ok.1 h
  obtain ⟨cs, -, h⟩ := bind_eq_ok.1 h
  obtain rfl := Except.ok.inj h
  exact List.cons_ne_nil b cs

theorem ruleOf_bodies_ne_nil (h : ruleOf e = some r) : r.2 ≠ [] := by
  rw [ruleOf_eq] at h
  obtain ⟨v, -, h⟩ := Option.bind_eq_some_iff.1 h
  obtain ⟨bs, hbs, rfl⟩ := Option.map_eq_some_iff.1 h
  exact readAlternatives_ne_nil (toOption_eq_some.1 hbs)

theorem readStart_of_ruleOf (h : ruleOf e = some r) :
    (readStart (.string e.1)).toOption = some r.1 := by
  rw [ruleOf_eq] at h
  obtain ⟨v, hv, h⟩ := Option.bind_eq_some_iff.1 h
  obtain ⟨bs, -, rfl⟩ := Option.map_eq_some_iff.1 h
  have hne : e.1 ≠ "" := by
    intro he
    rw [he] at hv
    exact nomatch hv
  rw [readStart, if_neg hne, hv]

theorem headIn_eq (p : List Char) : headIn p = if trim p = [] then none
    else if Symbol.isVarName (trim p) then some (.var (.ofList (trim p))) else none := by
  simp only [headIn, readHead, String.toList_ofList]
  split
  · rfl
  · split <;> rfl

theorem headIn_congr (h : trim p = trim q) : headIn p = headIn q := by
  rw [headIn_eq, headIn_eq, h]

def entryProductions (o : Option (String × String)) : Option (List Production) :=
  o.elim (some []) fun e ↦ (ruleOf e).map fun r ↦ r.2.map (⟨r.1, ·⟩)

theorem productionsOn_eq (line : List Char) :
    productionsOn line = (entryOn line).bind entryProductions := by
  simp only [productionsOn, entryOn]
  split
  · rfl
  · cases splitArrow? (spellArrows (trim (withoutComment line))) with
    | none => rfl
    | some e =>
      obtain ⟨lhs, rhs⟩ := e
      simp only [Option.bind_some]
      split
      · rename_i h
        rw [ruleIn, headIn_eq, if_pos h]
        rfl
      · -- the left-hand side is trimmed here and once more when it is read
        have hhead : headIn (trim lhs) = headIn lhs := headIn_congr (trim_trim lhs)
        rw [Option.bind_some, entryProductions, Option.elim_some, ruleOf_eq, ruleIn, ← hhead,
          headIn, bodiesIn]
        cases (readHead (.string (.ofList (trim lhs)))).toOption with
        | none => rfl
        | some v => cases (readAlternatives (.ofList rhs)).toOption <;> rfl

theorem mapM_entryProductions (os : List (Option (String × String))) :
    (os.mapM entryProductions).map List.flatten =
    ((os.filterMap id).mapM ruleOf).map Rules.productionsOf := by
  induction os with
  | nil => rfl
  | cons o os ih =>
    rw [mapM_flatten_cons, ih]
    cases o with
    | none =>
      have hnone : (none :: os).filterMap id = os.filterMap id := rfl
      rw [hnone]
      cases (os.filterMap id).mapM ruleOf <;> rfl
    | some e =>
      have hsome : (some e :: os).filterMap id = e :: os.filterMap id := rfl
      rw [hsome, List.mapM_cons, entryProductions, Option.elim_some]
      cases ruleOf e with
      | none => rfl
      | some r => cases (os.filterMap id).mapM ruleOf <;> rfl

theorem productionsIn_eq (lines : List (List Char)) :
    productionsIn lines = (lines.mapM entryOn).bind fun os ↦
    ((os.filterMap id).mapM ruleOf).map Rules.productionsOf := by
  have hon : productionsOn = fun line ↦ (entryOn line).bind entryProductions :=
    funext productionsOn_eq
  rw [productionsIn, hon, mapM_bind]
  cases lines.mapM entryOn with
  | none => rfl
  | some os => exact mapM_entryProductions os

theorem toOption_assemble (v : Symbol) (es : List (String × String)) :
    (assemble v (es.map textEntry)).toOption = (es.mapM ruleOf).bind fun rules ↦
      if rules = [] then none else (Grammar.mk v (.ofEntries rules)).check.toOption.map fun _ ↦
        ⟨v, .ofEntries rules⟩ := by
  have hrules : ((es.map textEntry).mapM readEntry).toOption = es.mapM ruleOf := by
    rw [toOption_mapM, List.mapM_map]
    rfl
  rw [assemble, toOption_bind, hrules]
  cases es.mapM ruleOf with
  | none => rfl
  | some rules =>
    cases rules with
    | nil => rfl
    | cons r rules =>
      simp only [Option.bind_some, List.isEmpty_cons, if_neg (List.cons_ne_nil r rules),
        if_neg Bool.false_ne_true]
      cases (Grammar.mk v (.ofEntries (r :: rules))).check <;> rfl

theorem toOption_readEntries (e : String × String) (es : List (String × String)) (start : Json) :
    (readEntries (if start.isGiven then start else .string e.1)
      ((e :: es).map textEntry)).toOption =
      (((e :: es).mapM ruleOf).map Rules.productionsOf).bind (ofProductions? start) := by
  rw [readEntries, toOption_bind]
  simp only [toOption_assemble]
  cases h : (e :: es).mapM ruleOf with
  | none => exact Option.bind_fun_none _
  | some rules =>
    have hne : ∀ r ∈ rules, r.2 ≠ [] := forall_mem_of_mapM (fun _ _ ↦ ruleOf_bodies_ne_nil) h
    rw [List.mapM_cons] at h
    obtain ⟨r, hr, h⟩ := Option.bind_eq_some_iff.1 h
    obtain ⟨rs, -, h⟩ := Option.bind_eq_some_iff.1 h
    obtain rfl := Option.some.inj h
    -- the first rule has a body, so its left-hand side is that of the first production as well
    have hrules := Rules.ofEntries_eq_ofProductions hne
    obtain ⟨b, bs, hbs⟩ := List.exists_cons_of_ne_nil (hne r List.mem_cons_self)
    have hcons : Rules.productionsOf (r :: rs) =
        ⟨r.1, b⟩ :: (bs.map (⟨r.1, ·⟩) ++ Rules.productionsOf rs) := by
      rw [Rules.productionsOf, List.flatMap_cons, hbs]
      rfl
    have hstart : (readStart (if start.isGiven then start else .string e.1)).toOption =
        if start.isGiven then (readStart start).toOption else some r.1 := by
      split
      · rfl
      · exact readStart_of_ruleOf hr
    simp only [Option.bind_some, if_neg (List.cons_ne_nil r rs), hstart, hrules, hcons,
      Option.map_some, ofProductions?]

theorem toOption_readText (t : String) (start : Json) :
    (readText t start).toOption = (productionsIn (lines t.toList)).bind (ofProductions? start) := by
  rw [readText]
  change ((((lines t.toList).zipIdx 1).mapM fun e ↦ readLine e.1 e.2) >>= _).toOption = _
  rw [toOption_bind, toOption_readLines, productionsIn_eq]
  cases (lines t.toList).mapM entryOn with
  | none => rfl
  | some os =>
    have hentries : (os.map (·.map textEntry)).filterMap id = (os.filterMap id).map textEntry := by
      rw [List.filterMap_map, List.map_filterMap]
      rfl
    simp only [Option.map_some, Option.bind_some, hentries]
    cases os.filterMap id with
    | nil => rfl
    | cons e es => exact toOption_readEntries e es start

end Grammar

end ChomskyNormalForm
