import ChomskyNormalForm.Grammar.Notation
import ChomskyNormalForm.Proofs.Symbol.Reader
import ChomskyNormalForm.Proofs.Text.Spacing

/-!
Bodies given symbol by symbol. No two symbols run together when they are written one behind the
other, so the list is read as the text that it makes up.
-/

namespace ChomskyNormalForm

open Text

namespace Symbol

variable {s : Symbol} {t : String}

theorem spelled_of_read (h : Symbol.read t = .ok s) :
    s = .epsilon ∧ trim t.toList ∈ epsilonMarks ∨ s.IsLegal ∧ s.text.toList = trim t.toList := by
  simp only [Symbol.read] at h
  split at h
  · rename_i hm
    exact .inl ⟨(Except.ok.inj h).symm, hm⟩
  split at h
  · rename_i ha
    obtain rfl := Except.ok.inj h
    exact .inr ⟨by rwa [IsLegal, String.toList_ofList], String.toList_ofList⟩
  split at h
  · rename_i hn
    obtain rfl := Except.ok.inj h
    exact .inr ⟨by rwa [IsLegal, String.toList_ofList], String.toList_ofList⟩
  · cases h

theorem eq_epsilon_or_isLegal_of_read (h : Symbol.read t = .ok s) : s = .epsilon ∨ s.IsLegal :=
  (spelled_of_read h).imp And.left And.left

end Symbol

namespace Body

variable {b : Body} {cs : List Char} {s : Symbol} {t : String}

theorem chars_append (b d : Body) : chars (b ++ d) = chars b ++ chars d := List.flatMap_append

def bare (cs : List Char) : List Char := (compact cs).filter (!isMark ·)

theorem bare_append (cs ds : List Char) : bare (cs ++ ds) = bare cs ++ bare ds := by
  rw [bare, compact_append, List.filter_append, bare, bare]

theorem bare_trim (cs : List Char) : bare (trim cs) = bare cs := by
  rw [bare, compact_trim, bare]

theorem bare_eq_self (h : ∀ c ∈ cs, c.isAlphanum = true) : bare cs = cs := by
  have hcompact : compact cs = cs :=
    compact_eq_self fun c hc ↦ IsPlain.isBlank_eq_false (.inl (h c hc))
  rw [bare, hcompact, filter_isMark_eq_self h]

theorem bare_of_read (h : Symbol.read t = .ok s) (he : trim t.toList ≠ "eps".toList) :
    bare t.toList = chars ([s].filter (· ≠ .epsilon)) := by
  rw [← bare_trim]
  rcases Symbol.spelled_of_read h with ⟨rfl, hm⟩ | ⟨hl, ht⟩
  · simp only [epsilonMarks, List.mem_cons, List.not_mem_nil, or_false] at hm
    rcases hm with hm | hm | hm
    · rw [hm]
      rfl
    · exact absurd hm he
    · rw [hm]
      rfl
  · have hs : [s].filter (· ≠ .epsilon) = [s] := List.filter_eq_self.2 fun x hx ↦ by
      rw [List.mem_singleton.1 hx]
      exact decide_eq_true hl.ne_epsilon
    rw [hs, ← ht, bare_eq_self hl.isAlphanum, chars, List.flatMap_singleton]

theorem read_of_bare_eq (hc : compact t.toList ≠ "eps".toList) (hb : bare t.toList = b.chars)
    (h : ∀ s ∈ b, s.IsLegal) : Body.read t = .ok (if b.isEmpty then Body.epsilon else b) := by
  rw [Body.read, ← bare, hb]
  by_cases hnil : b = []
  · subst hnil
    exact if_pos (.inr rfl)
  · have hchars : b.chars ≠ [] := IsLegal.chars_ne_nil (.inr ⟨hnil, h⟩)
    have heps : ¬(compact t.toList = ['e', 'p', 's'] ∨ b.chars = []) := not_or.2 ⟨hc, hchars⟩
    rw [if_neg heps, scan_chars h, if_neg (by rwa [List.isEmpty_iff])]
    rfl

end Body

namespace Grammar

variable {head : Symbol} {t : String} {ts : List String}

theorem readToken_of_blank (h : trim t.toList = []) : readToken head (.string t) = .ok none :=
  if_pos h

theorem readToken_of_ne_nil (h : trim t.toList ≠ []) :
    readToken head (.string t) = (Symbol.read t).map some := if_neg h

theorem mapM_readToken (head : Symbol) (ts : List String) :
    ((ts.map .string).mapM (readToken head)).map (·.filterMap id) =
      (ts.filter (trim ·.toList ≠ [])).mapM Symbol.read := by
  induction ts with
  | nil => rfl
  | cons t ts ih =>
    rw [List.map_cons, List.mapM_cons]
    by_cases ht : trim t.toList = []
    · rw [readToken_of_blank ht, ok_bind, List.filter_cons_of_neg (by simpa using ht), ← ih]
      cases (ts.map .string).mapM (readToken head) <;> rfl
    · rw [readToken_of_ne_nil ht, List.filter_cons_of_pos (by simpa using ht), List.mapM_cons, ← ih]
      cases Symbol.read t with
      | error e => rfl
      | ok s => cases (ts.map .string).mapM (readToken head) <;> rfl

theorem readTokens_strings (head : Symbol) (ts : List String) : readTokens head (ts.map .string) =
    ((ts.filter (trim ·.toList ≠ [])).mapM Symbol.read).map Body.normalized := by
  rw [← mapM_readToken head ts, readTokens]
  cases (ts.map .string).mapM (readToken head) <;> rfl

/-- The symbols of the list, one after the other, are what the joined text holds besides blanks and
marks. -/
theorem exists_symbols (h : ∀ t ∈ ts, trim t.toList = [] ∨ ∃ s, Symbol.read t = .ok s)
    (he : ∀ t ∈ ts, trim t.toList ≠ "eps".toList) :
    ∃ ss, (ts.filter (trim ·.toList ≠ [])).mapM Symbol.read = .ok ss ∧
    (∀ s ∈ ss, s = .epsilon ∨ s.IsLegal) ∧
      Body.bare (String.join ts).toList = Body.chars (ss.filter (· ≠ .epsilon)) := by
  induction ts with
  | nil => exact ⟨[], rfl, List.forall_mem_nil _, rfl⟩
  | cons t ts ih =>
    rw [List.forall_mem_cons] at h he
    obtain ⟨ss, hss, hl, hb⟩ := ih h.2 he.2
    have hjoin : Body.bare (String.join (t :: ts)).toList = Body.bare t.toList ++
        Body.bare (String.join ts).toList := by
      rw [String.toList_join, List.flatMap_cons, Body.bare_append, String.toList_join]
    rw [hjoin, hb]
    by_cases ht : trim t.toList = []
    · refine ⟨ss, ?_, hl, ?_⟩
      · rwa [List.filter_cons_of_neg (by simpa using ht)]
      · rw [← Body.bare_trim, ht]
        rfl
    · obtain ⟨s, hs⟩ := h.1.resolve_left ht
      refine ⟨s :: ss, ?_, ?_, ?_⟩
      · rw [List.filter_cons_of_pos (by simpa using ht), List.mapM_cons, hs, ok_bind, hss]
        rfl
      · exact List.forall_mem_cons.2 ⟨Symbol.eq_epsilon_or_isLegal_of_read hs, hl⟩
      · have hcons : (s :: ss).filter (· ≠ .epsilon) = [s].filter (· ≠ .epsilon) ++
            ss.filter (· ≠ .epsilon) :=
          List.filter_append [s] ss
        rw [hcons, Body.chars_append, Body.bare_of_read hs he.1]

/-- A list of symbols and blank texts is the same body as the text that its items make up, unless an
item or all of that text is `eps`. -/
theorem readTokens_eq_read (head : Symbol)
    (h : ∀ t ∈ ts, trim t.toList = [] ∨ ∃ s, Symbol.read t = .ok s)
    (he : ∀ t ∈ ts, trim t.toList ≠ "eps".toList)
    (hc : compact (String.join ts).toList ≠ "eps".toList) :
    ∃ ss, (ts.filter (trim ·.toList ≠ [])).mapM Symbol.read = .ok ss ∧
      readTokens head (ts.map .string) = .ok (Body.normalized ss) ∧
      Body.read (String.join ts) = .ok (Body.normalized ss) := by
  obtain ⟨ss, hss, hl, hb⟩ := exists_symbols h he
  refine ⟨ss, hss, ?_, ?_⟩
  · rw [readTokens_strings, hss]
    rfl
  · refine Body.read_of_bare_eq hc hb fun s hs ↦ ?_
    obtain ⟨hm, hne⟩ := List.mem_filter.1 hs
    exact (hl s hm).resolve_left (of_decide_eq_true hne)

theorem readTokens_eq_read_spelled :
    let ts := ["e", " p\t", "_", " ", "S0", "\u3000ε", "s"]
    (∀ t ∈ ts, trim t.toList = [] ∨ ∃ s, Symbol.read t = .ok s) ∧
    (∀ t ∈ ts, trim t.toList ≠ "eps".toList) ∧
      compact (String.join ts).toList ≠ "eps".toList ∧
      ∃ b, readTokens (.var "S") (ts.map .string) = .ok b ∧ Body.read (String.join ts) = .ok b := by
  intro ts
  have h : ∀ t ∈ ts, trim t.toList = [] ∨ ∃ s, Symbol.read t = .ok s := by
    simp only [ts, List.forall_mem_cons]
    exact ⟨.inr ⟨_, rfl⟩, .inr ⟨_, rfl⟩, .inr ⟨_, rfl⟩, .inl rfl, .inr ⟨_, rfl⟩, .inr ⟨_, rfl⟩,
      .inr ⟨_, rfl⟩, nofun⟩
  have he : ∀ t ∈ ts, trim t.toList ≠ "eps".toList := by decide
  have hc : compact (String.join ts).toList ≠ "eps".toList := by decide
  obtain ⟨ss, -, hs, hr⟩ := readTokens_eq_read (.var "S") h he hc
  exact ⟨h, he, hc, _, hs, hr⟩

end Grammar

end ChomskyNormalForm
