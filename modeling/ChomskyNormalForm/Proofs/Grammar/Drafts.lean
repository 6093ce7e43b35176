import ChomskyNormalForm.Proofs.Grammar.Tokens
import ChomskyNormalForm.Proofs.Symbol.Splitting

/-!
What the check of a grammar accepts, and what it can still refuse in a grammar that was read. The
symbols of such a grammar are legal wherever they stand, so only entries can be missing.
-/

namespace ChomskyNormalForm

open Text

namespace Symbol

variable {s : Symbol}

def IsNamed (s : Symbol) : Prop :=
  ∃ c ds, s = .var (.ofList (c :: ds)) ∧ ('A' ≤ c ∧ c ≤ 'Z') ∧ ∀ d ∈ ds, '0' ≤ d ∧ d ≤ '9'

def IsLetter (s : Symbol) : Prop := ∃ c, s = .terminal (.singleton c) ∧ 'a' ≤ c ∧ c ≤ 'z'

theorem isNamed_iff : s.IsNamed ↔ s.isVar = true ∧ s.IsLegal := by
  constructor
  · rintro ⟨c, ds, rfl, hc, hds⟩
    refine ⟨rfl, ?_⟩
    rw [IsLegal, String.toList_ofList, isVarName, isUpper_iff.2 hc, Bool.true_and, List.all_eq_true]
    exact fun d hd ↦ isDigit_iff.2 (hds d hd)
  · intro h
    obtain ⟨hv, hl⟩ := h
    cases s with
    | var name =>
      obtain ⟨c, ds, hn, hc, hds⟩ := hl.exists_toList_eq
      exact ⟨c, ds, by rw [← hn, String.ofList_toList], isUpper_iff.1 hc,
        fun d hd ↦ isDigit_iff.1 (hds d hd)⟩
    | _ => exact absurd hv Bool.false_ne_true

theorem isLetter_iff : s.IsLetter ↔ s.isVar = false ∧ s.IsLegal := by
  constructor
  · rintro ⟨c, rfl, hc⟩
    refine ⟨rfl, ?_⟩
    rw [IsLegal, String.toList_singleton]
    exact isLower_iff.2 hc
  · intro h
    obtain ⟨hv, hl⟩ := h
    cases s with
    | terminal a =>
      obtain ⟨c, hc, rfl⟩ := hl.exists_singleton
      exact ⟨c, rfl, isLower_iff.1 hc⟩
    | var name => exact absurd hv.symm Bool.false_ne_true
    | _ => exact hl.elim

theorem isLegal_iff : s.IsLegal ↔ s.IsLetter ∨ s.IsNamed := by
  rw [isLetter_iff, isNamed_iff, ← or_and_right]
  cases s.isVar <;> simp

end Symbol

namespace Body

variable {ss : List Symbol}

theorem ends_read (text : String) : Ends (fun _ ↦ True) (Body.read text) IsLegal := by
  simp only [Body.read]
  split
  · exact .inl rfl
  · rename_i h
    have hs := ends_scan ((compact text.toList).filter (!isMark ·))
    cases hx : scan ((compact text.toList).filter (!isMark ·)) with
    | error x => exact trivial
    | ok b =>
      rw [hx] at hs
      refine .inr ⟨?_, hs.1⟩
      rintro rfl
      exact h (.inr hs.2.symm)

theorem isLegal_normalized (h : ∀ s ∈ ss, s = .epsilon ∨ s.IsLegal) : (normalized ss).IsLegal := by
  simp only [normalized]
  split
  · exact .inl rfl
  · rename_i hne
    refine .inr ⟨fun he ↦ hne (List.isEmpty_iff.2 he), fun s hs ↦ ?_⟩
    obtain ⟨hm, he⟩ := List.mem_filter.1 hs
    exact (h s hm).resolve_left (of_decide_eq_true he)

end Body

namespace Grammar

variable {g : Grammar} {f : GrammarFault} {head : Symbol}

theorem ends_readHead (j : Json) : Ends (fun _ ↦ True) (readHead j) fun v ↦ v.isVar = true ∧
    v.IsLegal := by
  cases j with
  | string s =>
    simp only [readHead]
    split
    · exact trivial
    split
    · rename_i hn
      exact ⟨rfl, by rwa [Symbol.IsLegal, String.toList_ofList]⟩
    · exact trivial
  | _ => exact trivial

theorem ends_readAlternatives (s : String) :
    Ends (fun _ ↦ True) (readAlternatives s) fun bs ↦ ∀ b ∈ bs, b.IsLegal :=
  Ends.mapM fun _ _ ↦ Body.ends_read _

theorem ends_readToken (head : Symbol) (j : Json) :
    Ends (fun _ ↦ True) (readToken head j) fun o ↦ ∀ s ∈ o, s = .epsilon ∨ s.IsLegal := by
  cases j with
  | string t =>
    by_cases ht : trim t.toList = []
    · rw [readToken_of_blank ht]
      exact nofun
    · rw [readToken_of_ne_nil ht]
      cases hs : Symbol.read t with
      | error e => exact trivial
      | ok s => exact fun _ hm ↦ Option.some.inj hm ▸ Symbol.eq_epsilon_or_isLegal_of_read hs
  | _ => exact trivial

theorem ends_readTokens (head : Symbol) (tokens : List Json) :
    Ends (fun _ ↦ True) (readTokens head tokens) Body.IsLegal := by
  apply (Ends.mapM fun j _ ↦ ends_readToken head j).bind
  intro os hos
  refine Body.isLegal_normalized fun s hs ↦ ?_
  obtain ⟨o, ho, rfl⟩ := List.mem_filterMap.1 hs
  exact hos _ ho s rfl

theorem ends_readItem (head : Symbol) (j : Json) :
    Ends (fun _ ↦ True) (readItem head j) fun bs ↦ ∀ b ∈ bs, b.IsLegal := by
  cases j with
  | string s => exact ends_readAlternatives s
  | array tokens =>
    exact ((ends_readTokens head tokens).mono fun b hb ↦ List.forall_mem_singleton.2 hb).map
  | _ => exact trivial

theorem ends_readBodies (head : Symbol) (j : Json) :
    Ends (fun _ ↦ True) (readBodies head j) fun bs ↦ ∀ b ∈ bs, b.IsLegal := by
  cases j with
  | string s => exact ends_readAlternatives s
  | array items =>
    refine ((Ends.mapM fun item _ ↦ ends_readItem head item).mono fun bss h b hb ↦ ?_).map
    obtain ⟨bs, hbs, hb⟩ := List.mem_flatten.1 hb
    exact h bs hbs b hb
  | _ => exact trivial

theorem ends_readEntry (e : Json × Json) : Ends (fun _ ↦ True) (readEntry e) fun r ↦
    (r.1.isVar = true ∧ r.1.IsLegal) ∧ ∀ b ∈ r.2, b.IsLegal := by
  apply (ends_readHead e.1).bind
  intro v hv
  apply (ends_readBodies v e.2).bind
  intro bs hbs
  exact ⟨hv, hbs⟩

theorem ends_readStart (j : Json) : Ends (fun _ ↦ True) (readStart j) fun v ↦ v.isVar = true ∧
    v.IsLegal := by
  cases j with
  | string s =>
    rw [readStart]
    split
    · exact trivial
    · exact ends_readHead (.string s)
  | _ => exact trivial

/-- The grammar that is read from a start and rules, before it is checked. -/
def draft (start productions : Json) : Except GrammarFault Grammar := do
  let start ← readStart start
  let rules ← (← entriesOf productions).mapM readEntry
  if rules.isEmpty then throw .noRules
  return ⟨start, .ofEntries rules⟩

theorem read_eq (start productions : Json) :
    read start productions = draft start productions >>= fun g ↦ g.check >>= fun _ ↦ .ok g := by
  rw [read, draft]
  cases readStart start with
  | error e => rfl
  | ok v =>
    cases entriesOf productions with
    | error e => rfl
    | ok entries =>
      simp only [ok_bind, assemble]
      cases entries.mapM readEntry with
      | error e => rfl
      | ok rules =>
        cases rules with
        | nil => rfl
        | cons r rules => rfl

/-- All symbols are legal where they stand. Whether they have entries is left open. -/
structure IsFormed (g : Grammar) : Prop where
  start : g.start.isVar = true ∧ g.start.IsLegal
  head : ∀ v ∈ g, v.isVar = true ∧ v.IsLegal
  body : ∀ v, ∀ b ∈ g.bodies v, b.IsLegal

theorem ends_draft (start productions : Json) :
    Ends (fun _ ↦ True) (draft start productions) IsFormed := by
  apply (ends_readStart start).bind
  intro v hv
  cases entriesOf productions with
  | error e => exact trivial
  | ok entries =>
    apply (Ends.mapM fun e (_ : e ∈ entries) ↦ ends_readEntry e).bind
    intro rules hr
    by_cases hne : rules.isEmpty = true
    · rw [if_pos hne]
      exact trivial
    · rw [if_neg hne]
      refine ⟨hv, fun u hu ↦ ?_, fun u b hb ↦ ?_⟩
      · obtain ⟨r, hm, rfl⟩ := Rules.mem_ofEntries.1 hu
        exact (hr r hm).1
      · obtain ⟨r, hm, -, hb⟩ := Rules.mem_bodies_ofEntries.1 hb
        exact (hr r hm).2 b hb

/-- With all symbols legal, the check comes down to its last part. -/
theorem IsFormed.check_eq (h : g.IsFormed) : g.check = g.checkClosed := by
  have hstart : g.start.checkVar = .ok () := Symbol.checkVar_eq_ok.2 h.start
  have hentries : g.rules.entries.forM checkEntry = .ok () := by
    refine forM_eq_ok.2 fun e he ↦ checkEntry_eq_ok.2 ?_
    exact (forall_mem_entries (p := fun v bs ↦ (v.isVar = true ∧ v.IsLegal) ∧
      ∀ b ∈ bs, b.IsLegal)).2 (fun v hv ↦ ⟨h.head v hv, h.body v⟩) e he
  have hcheck : g.check = g.start.checkVar >>= fun _ ↦ g.rules.entries.forM checkEntry >>= fun _ ↦
      g.checkClosed := rfl
  rw [hcheck, hstart, ok_bind, hentries, ok_bind]

theorem checkClosed_eq_error (h : g.checkClosed = .error f) :
    g.start ∉ g ∧ f = .undefinedStart g.start ∨ g.start ∈ g ∧ g.dangling ≠ [] ∧
    f = .undeclared g.dangling := by
  unfold checkClosed at h
  split at h
  · rename_i hs
    exact .inl ⟨hs, (Except.error.inj h).symm⟩
  · rename_i hs
    cases hd : g.dangling with
    | nil =>
      rw [hd] at h
      exact nomatch h
    | cons u us =>
      rw [hd] at h
      exact .inr ⟨not_not.1 hs, List.cons_ne_nil u us, (Except.error.inj h).symm⟩

/-- A grammar passes the check when its start, its left-hand sides and its bodies are well formed
and nothing lacks an entry. In a grammar that was read, an entry of the start or of a variable in a
body is all that can be found missing. -/
theorem check_accepts_wellFormed :
    (∀ g : Grammar, g.check = .ok () ↔ g.start.IsNamed ∧ (∀ v ∈ g, v.IsNamed) ∧ g.start ∈ g ∧
      (∀ v, ∀ b ∈ g.bodies v, b = [.epsilon] ∨ b ≠ [] ∧ ∀ s ∈ b, s.IsLetter ∨ s.IsNamed) ∧
      ∀ v, ∀ b ∈ g.bodies v, ∀ s ∈ b, s.isVar = true → s ∈ g) ∧
    ∀ start productions,
      read start productions = (draft start productions >>= fun g ↦ g.check >>= fun _ ↦ .ok g) ∧
      ∀ g f, draft start productions = .ok g → g.check = .error f →
        g.start ∉ g ∧ f = .undefinedStart g.start ∨ g.start ∈ g ∧ g.dangling ≠ [] ∧
        f = .undeclared g.dangling := by
  refine ⟨fun g ↦ ?_, fun start productions ↦ ⟨read_eq start productions, fun g f hd hc ↦ ?_⟩⟩
  · rw [check_eq_ok_iff]
    constructor
    · intro h
      refine ⟨Symbol.isNamed_iff.2 (h.head _ h.start_mem),
        fun v hv ↦ Symbol.isNamed_iff.2 (h.head v hv), h.start_mem, fun v b hb ↦ ?_,
        fun v b hb s hs hv ↦ ?_⟩
      · exact (h.body v b hb).imp_right fun hl ↦ ⟨hl.1, fun s hs ↦ Symbol.isLegal_iff.1 (hl.2 s hs)⟩
      · exact h.closed v s ⟨b, hb, Body.mem_vars.2 ⟨hs, hv⟩⟩
    · intro h
      obtain ⟨-, hhead, hstart, hbody, hclosed⟩ := h
      refine ⟨hstart, fun v hv ↦ Symbol.isNamed_iff.1 (hhead v hv), fun v b hb ↦ ?_,
        fun v u hu ↦ ?_⟩
      · exact (hbody v b hb).imp_right fun hl ↦ ⟨hl.1, fun s hs ↦ Symbol.isLegal_iff.2 (hl.2 s hs)⟩
      · obtain ⟨b, hb, hu⟩ := hu
        obtain ⟨hm, hv⟩ := Body.mem_vars.1 hu
        exact hclosed v b hb u hm hv
  · have hg : g.IsFormed := (ends_draft start productions).of_ok hd
    rw [hg.check_eq] at hc
    exact checkClosed_eq_error hc

def unfinished : Grammar :=
  ⟨.var "S", .ofEntries [(.var "S", [[.terminal "a", .var "B"], [.epsilon]])]⟩

theorem check_accepts_wellFormed_unfinished :
    let start := Json.string " S"
    let productions := Json.object [(.string "S", .string "a B | eps")]
    draft start productions = .ok unfinished ∧ unfinished.check = .error (.undeclared [.var "B"]) ∧
      unfinished.dangling = [.var "B"] := by
  intro start productions
  have hd : draft start productions = .ok unfinished := rfl
  have hc : unfinished.check = .error (.undeclared [.var "B"]) := rfl
  refine ⟨hd, hc, ?_⟩
  rcases (check_accepts_wellFormed.2 start productions).2 unfinished _ hd hc with
    ⟨-, hf⟩ | ⟨-, -, hf⟩
  · exact nomatch hf
  · exact (GrammarFault.undeclared.inj hf).symm

end Grammar

end ChomskyNormalForm
