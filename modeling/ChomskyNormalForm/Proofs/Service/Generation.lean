import ChomskyNormalForm.Proofs.Form.Normal
import ChomskyNormalForm.Proofs.Language.FirstWords
import ChomskyNormalForm.Service.Handler

namespace ChomskyNormalForm

namespace Grammar

variable {g : Grammar} {n : Normalization}

theorem check_of_normalize (hn : g.normalize = .ok n) : g.check = .ok () := by
  rw [normalize_eq_ok, Session.normalize_eq] at hn
  exact mapError_eq_ok.1 (Session.expect_eq_ok.1 (bind_unit_eq_ok.1 hn).1)

/-- The normal form has the same words up to a length; an empty language has none. -/
theorem derivable_normalize (hn : g.normalize = .ok n) (k : Nat) :
    (if n.isEmpty then [] else n.grammar.derivable k) = g.derivable k := by
  have hc := check_of_normalize hn
  have hg := check_eq_ok_iff.1 hc
  have hlist := isListing_derivable hg k
  by_cases hw : ∃ w, g.Generates w
  · have h := isNormalized_of_normalize hc hw hn
    have hlist' := isListing_derivable h.isBinary.legal k
    have hL : n.grammar.Generates = g.Generates := funext fun w ↦ propext (h.generates_iff w)
    rw [if_neg (by rw [h.isEmpty_eq]; decide)]
    exact (hL ▸ hlist').eq hlist
  · obtain ⟨m, hm, hempty, -⟩ := Session.normalize_of_not_isProductive (s := .ofGrammar g) hg hw
    obtain rfl : m = n := Except.ok.inj (hm.symm.trans (normalize_eq_ok.1 hn))
    rw [if_pos hempty]
    exact (List.eq_nil_iff_forall_not_mem.2 fun s hs ↦ hw ⟨_, ((hlist.mem_iff s).1 hs).1⟩).symm

end Grammar

namespace Service

open Grammar

variable {settings : Settings} {data answer : Json} {g : Grammar} {n : Normalization} {length : Int}
  {fault : Fault}

theorem normalized_eq (data : Json) : normalized data =
    ((grammarOf data).mapError Fault.grammar >>= fun g ↦ g.normalize.map fun n ↦ (g, n)) := rfl

theorem normalized_eq_ok (h : normalized data = .ok (g, n)) :
    grammarOf data = .ok g ∧ g.normalize = .ok n := by
  obtain ⟨f, hf, h⟩ := bind_eq_ok.1 (normalized_eq data ▸ h)
  obtain ⟨m, hm, he⟩ := map_eq_ok.1 h
  cases he
  exact ⟨mapError_eq_ok.1 hf, hm⟩

theorem check_of_assemble {start : Symbol} {entries : List (Json × Json)}
    (h : assemble start entries = .ok g) :
    g.check = .ok () := by
  obtain ⟨rules, -, h⟩ := bind_eq_ok.1 h
  split at h
  · exact nomatch h
  · obtain ⟨hc, hg⟩ := bind_unit_eq_ok.1 h
    exact Except.ok.inj hg ▸ hc

theorem check_of_grammarOf (h : grammarOf data = .ok g) : g.check = .ok () := by
  obtain ⟨text, -, h⟩ := bind_eq_ok.1 h
  obtain ⟨start, -, h⟩ := bind_eq_ok.1 h
  dsimp only at h
  split at h
  · obtain ⟨v, -, h⟩ := bind_eq_ok.1 h
    obtain ⟨entries, -, h⟩ := bind_eq_ok.1 h
    exact check_of_assemble h
  · obtain ⟨entries, -, h⟩ := bind_eq_ok.1 h
    split at h
    · exact nomatch h
    · obtain ⟨v, -, h⟩ := bind_eq_ok.1 h
      exact check_of_assemble h

/-! ### What is wrong with a request -/

def IsObject (data : Json) : Prop := ∃ fields, data = .object fields

inductive GrammarTrouble (data : Json) : String → Prop
  | unread {f : GrammarFault} (h : grammarOf data = .error f) :
      GrammarTrouble data ("Grammar Error: " ++ f.message)
  | exhausted {g : Grammar} {limit : Int} (hg : grammarOf data = .ok g)
      (h : g.normalize = .error (.namesExhausted limit)) :
      GrammarTrouble data ("Normalization Error: " ++ (Fault.namesExhausted limit).message)

theorem GrammarTrouble.exists_fault {m : String} (h : GrammarTrouble data m) :
    ∃ fault, normalized data = .error fault ∧ faultRefusal fault = refusal m := by
  rw [normalized_eq]
  cases h with
  | unread h => exact ⟨_, bind_eq_error.2 (.inl (mapError_eq_error.2 ⟨_, h, rfl⟩)), rfl⟩
  | exhausted hg h =>
    exact ⟨_, bind_eq_error.2 (.inr ⟨_, mapError_eq_ok.2 hg, map_eq_error.2 h⟩), rfl⟩

theorem exists_trouble (h : normalized data = .error fault) :
    ∃ m, GrammarTrouble data m ∧ faultRefusal fault = refusal m := by
  obtain hg | ⟨g, hg, hn⟩ := bind_eq_error.1 (normalized_eq data ▸ h)
  · obtain ⟨f, hf, rfl⟩ := mapError_eq_error.1 hg
    exact ⟨_, .unread hf, rfl⟩
  · have hg := mapError_eq_ok.1 hg
    have hn := map_eq_error.1 hn
    obtain ⟨n, hok⟩ | ⟨limit, hlimit⟩ :=
      normalize_eq_ok_or_exhausted (check_eq_ok_iff.1 (check_of_grammarOf hg))
    · exact nomatch hn.symm.trans hok
    · obtain rfl := Except.error.inj (hn.symm.trans hlimit)
      exact ⟨_, .exhausted hg hlimit, rfl⟩

def lengthOf (settings : Settings) (data : Json) : Except WholeNumberFault Int :=
  wholeNumber ((data.field? "max_length").getD settings.maxLength)

/-- What is wrong with a request for words, by the message that tells it. What is looked at later
counts only if all before it is right. -/
inductive GenerateFault (settings : Settings) (data : Json) : String → Prop
  | body (hd : ¬IsObject data) :
      GenerateFault settings data "Grammar Error: Request body must be a JSON object."
  | noInteger (hd : IsObject data) (hl : lengthOf settings data = .error .noNumber) :
      GenerateFault settings data "max_length must be an integer."
  | outOfRange {length : Int} (hd : IsObject data) (hl : lengthOf settings data = .ok length)
      (hw : isWithin? settings.maxLength length = some false) :
      GenerateFault settings data
        ("max_length must be between 0 and " ++ settings.maxLength.shown ++ ".")
  | grammar {length : Int} {m : String} (hd : IsObject data)
      (hl : lengthOf settings data = .ok length)
      (hw : isWithin? settings.maxLength length = some true) (hm : GrammarTrouble data m) :
      GenerateFault settings data m

def IsNumber : Json → Prop
  | .bool _ | .int _ | .float _ => True
  | _ => False

/-- The request ends without an answer: its length is infinite, or is to be compared with a bound
that is no number. -/
inductive BreaksDown (settings : Settings) (data : Json) : Breakdown → Prop
  | endless {negative : Bool} (hd : IsObject data)
      (hl : (data.field? "max_length").getD settings.maxLength = .float (.infinite negative)) :
      BreaksDown settings data .infiniteLength
  | unordered {length : Int} (hd : IsObject data) (hl : lengthOf settings data = .ok length)
      (h0 : 0 ≤ length) (hb : ¬IsNumber settings.maxLength) :
      BreaksDown settings data (.unordered settings.maxLength.kind)

theorem wholeNumber_eq_infinite {j : Json} :
    wholeNumber j = .error .infinite ↔ ∃ negative, j = .float (.infinite negative) := by
  refine ⟨fun h ↦ ?_, fun ⟨negative, he⟩ ↦ he ▸ rfl⟩
  unfold wholeNumber at h
  split at h
  · exact nomatch h
  · exact ⟨_, rfl⟩
  · split at h <;> exact nomatch h
  · split at h <;> exact nomatch h

theorem isWithin?_eq_none {bound : Json} : isWithin? bound length = none ↔ 0 ≤ length ∧
    ¬IsNumber bound := by
  unfold isWithin?
  split
  · rename_i h
    exact iff_of_false nofun fun hn ↦ Int.not_lt.2 hn.1 h
  · rename_i h
    cases bound with
    | bool b => exact iff_of_false nofun fun hn ↦ hn.2 trivial
    | int limit => exact iff_of_false nofun fun hn ↦ hn.2 trivial
    | float limit => exact iff_of_false nofun fun hn ↦ hn.2 trivial
    | _ => exact iff_of_true rfl ⟨Int.not_lt.1 h, id⟩

theorem isWithin?_eq_true {bound : Json} (h : isWithin? bound length = some true) : 0 ≤ length := by
  unfold isWithin? at h
  split at h
  · exact nomatch h
  · exact Int.not_lt.1 ‹_›

def listing (settings : Settings) (g : Grammar) (n : Normalization) (length : Int) : Json :=
  let words := wordList (upTo settings.maxStrings (g.derivable length.toNat))
  .record [("success", .bool true), ("max_length", .int length), ("generated", words),
    ("generated_cnf", words), ("cnf", n.grammar.toJson)]

theorem generate_of_fault {m : String} (h : GenerateFault settings data m) :
    generate settings data = .ok (refusal m) := by
  cases h with
  | body hd =>
    cases data with
    | object fields => exact absurd ⟨fields, rfl⟩ hd
    | _ => rfl
  | noInteger hd hl =>
    obtain ⟨fields, rfl⟩ := hd
    rw [lengthOf] at hl
    simp only [generate, hl]
  | outOfRange hd hl hw =>
    obtain ⟨fields, rfl⟩ := hd
    rw [lengthOf] at hl
    simp only [generate, hl, hw]
    rfl
  | grammar hd hl hw hm =>
    obtain ⟨fields, rfl⟩ := hd
    obtain ⟨fault, hn, hr⟩ := hm.exists_fault
    rw [lengthOf] at hl
    simp only [generate, hl, hw, hn, hr]

theorem generate_of_breaksDown {b : Breakdown} (h : BreaksDown settings data b) :
    generate settings data = .error b := by
  cases h with
  | endless hd hl =>
    obtain ⟨fields, rfl⟩ := hd
    simp only [generate, hl]
    rfl
  | unordered hd hl h0 hb =>
    obtain ⟨fields, rfl⟩ := hd
    rw [lengthOf] at hl
    simp only [generate, hl, isWithin?_eq_none.2 ⟨h0, hb⟩]

theorem generate_of_normalized (hd : IsObject data) (hl : lengthOf settings data = .ok length)
    (hw : isWithin? settings.maxLength length = some true) (hn : normalized data = .ok (g, n)) :
    generate settings data = .ok (listing settings g n length) := by
  have h0 := isWithin?_eq_true hw
  have hwords := derivable_normalize (normalized_eq_ok hn).2 length.toNat
  obtain ⟨fields, rfl⟩ := hd
  rw [lengthOf] at hl
  simp only [generate, hl, hw, hn]
  rw [firstWords_eq h0, firstWords_eq h0, listing, ← hwords]
  split
  · rw [upTo_nil]
    rfl
  · rfl

/-- A request has a fault, breaks down, or is answered with the words. -/
theorem generate_cases (settings : Settings) (data : Json) :
    (∃ m, GenerateFault settings data m) ∨ (∃ b, BreaksDown settings data b) ∨
    ∃ length g n, lengthOf settings data = .ok length ∧ 0 ≤ length ∧ normalized data = .ok (g, n) ∧
      generate settings data = .ok (listing settings g n length) := by
  by_cases hd : IsObject data
  swap
  · exact .inl ⟨_, .body hd⟩
  cases hl : lengthOf settings data with
  | error f =>
    cases f with
    | noNumber => exact .inl ⟨_, .noInteger hd hl⟩
    | infinite =>
      obtain ⟨negative, hl⟩ := wholeNumber_eq_infinite.1 hl
      exact .inr (.inl ⟨_, .endless hd hl⟩)
  | ok length =>
    rcases hw : isWithin? settings.maxLength length with _ | within | within
    · obtain ⟨h0, hb⟩ := isWithin?_eq_none.1 hw
      exact .inr (.inl ⟨_, .unordered hd hl h0 hb⟩)
    · exact .inl ⟨_, .outOfRange hd hl hw⟩
    · cases hn : normalized data with
      | error fault =>
        obtain ⟨m, hm, -⟩ := exists_trouble hn
        exact .inl ⟨m, .grammar hd hl hw hm⟩
      | ok r =>
        have hr := generate_of_normalized hd hl hw hn
        exact .inr (.inr ⟨length, r.1, r.2, rfl, isWithin?_eq_true hw, rfl, hr⟩)

/-- Of a request that succeeds, both lists hold the first words, as many as the settings allow, of
all words of the source up to the length. -/
theorem generate_lists_words (h : generate settings data = .ok answer)
    (hs : answer.field? "success" = some (.bool true)) :
    ∃ g length l, grammarOf data = .ok g ∧ lengthOf settings data = .ok length ∧ 0 ≤ length ∧
      IsListing g.Generates length.toNat l ∧
      answer.field? "generated" = some (wordList (upTo settings.maxStrings l)) ∧
      answer.field? "generated_cnf" = answer.field? "generated" ∧
      ∀ k : Nat, settings.maxStrings = some (k : Int) →
      answer.field? "generated" = some (wordList (l.take k)) := by
  have hrefused : ∀ message, answer ≠ refusal message := by
    rintro message rfl
    exact absurd hs (by simp [refusal, Json.record, Json.field?, Json.isNamed])
  obtain ⟨m, hm⟩ | ⟨b, hb⟩ | ⟨length, g, n, hl, h0, hn, hr⟩ := generate_cases settings data
  · exact absurd (Except.ok.inj (h.symm.trans (generate_of_fault hm))) (hrefused m)
  · exact nomatch h.symm.trans (generate_of_breaksDown hb)
  · obtain rfl := Except.ok.inj (h.symm.trans hr)
    obtain ⟨hg, hn⟩ := normalized_eq_ok hn
    have hlist := isListing_derivable (check_eq_ok_iff.1 (check_of_normalize hn)) length.toNat
    refine ⟨g, length, g.derivable length.toNat, hg, hl, h0, hlist, rfl, rfl, fun k hk ↦ ?_⟩
    rw [← upTo_natCast, ← hk]
    rfl

def balancedRequest : Json := .record [("text", .string "S -> aSb | eps"), ("max_length", .int 4)]

def isTrue : Json → Bool
  | .bool b => b
  | _ => false

theorem isTrue_iff {j : Json} : isTrue j = true ↔ j = .bool true := by
  cases j <;> simp [isTrue]

theorem generate_lists_words_balanced : ∃ answer, generate .standard balancedRequest = .ok answer ∧
    answer.field? "success" = some (.bool true) ∧
    ∃ g length l, grammarOf balancedRequest = .ok g ∧
    lengthOf .standard balancedRequest = .ok length ∧ 0 ≤ length ∧
      IsListing g.Generates length.toNat l ∧
      answer.field? "generated" = some (wordList (upTo Settings.standard.maxStrings l)) ∧
      answer.field? "generated_cnf" = answer.field? "generated" ∧
      ∀ k : Nat, Settings.standard.maxStrings = some (k : Int) →
        answer.field? "generated" = some (wordList (l.take k)) := by
  have hs : ((generate .standard balancedRequest).toOption.bind (·.field? "success")).any isTrue =
      true := by
    decide +kernel
  cases h : generate .standard balancedRequest with
  | ok answer =>
    rw [h] at hs
    have hsuccess : answer.field? "success" = some (.bool true) := by
      obtain ⟨j, hj, ht⟩ := (Option.any_eq_true _ _).1 hs
      exact isTrue_iff.1 ht ▸ hj
    exact ⟨answer, rfl, hsuccess, generate_lists_words h hsuccess⟩
  | error b =>
    rw [h] at hs
    exact Bool.noConfusion hs

end Service

end ChomskyNormalForm
