import ChomskyNormalForm.Proofs.Service.Generation

namespace ChomskyNormalForm

namespace Service

open Grammar

variable {settings : Settings} {data answer : Json} {m : String}

def modeOf (settings : Settings) (data : Json) : Option SnapshotMode :=
  SnapshotMode.ofJson? ((data.field? "snapshots").getD settings.snapshots)

/-- What is wrong with a request for a normal form, by the message that tells it. What is looked at
later counts only if all before it is right. -/
inductive NormalizeFault (settings : Settings) (data : Json) : String → Prop
  | body (hd : ¬IsObject data) :
      NormalizeFault settings data "Grammar Error: Request body must be a JSON object."
  | unknownMode (hd : IsObject data) (hm : modeOf settings data = none) :
      NormalizeFault settings data
        ("Unknown snapshot mode '" ++ ((data.field? "snapshots").getD settings.snapshots).shown ++
          "'. Use one of: full, delta, none.")
  | grammar {mode : SnapshotMode} {m : String} (hd : IsObject data)
      (hm : modeOf settings data = some mode) (h : GrammarTrouble data m) :
      NormalizeFault settings data m

structure IsSuccess (answer : Json) : Prop where
  isObject : IsObject answer
  tells : answer.field? "success" = some (.bool true)

theorem refusal_inj {m m' : String} (h : refusal m = refusal m') : m = m' := by
  simpa [refusal, Json.record] using h

theorem not_isSuccess_refusal : ¬IsSuccess (refusal m) := by
  intro h
  have ht := h.tells
  simp [refusal, Json.record, Json.field?, Json.isNamed] at ht

theorem isSuccess_record {fields : List (String × Json)} :
    IsSuccess (.record (("success", .bool true) :: fields)) :=
  ⟨⟨_, rfl⟩, rfl⟩

theorem normalize_of_fault (h : NormalizeFault settings data m) :
    normalize settings data = refusal m := by
  cases h with
  | body hd =>
    cases data with
    | object fields => exact absurd ⟨fields, rfl⟩ hd
    | _ => rfl
  | unknownMode hd hm =>
    obtain ⟨fields, rfl⟩ := hd
    rw [modeOf] at hm
    have hnames : modeNames = "full, delta, none" := by decide
    simp only [normalize, hm, hnames, toString, String.append_assoc]
    rfl
  | grammar hd hm h =>
    obtain ⟨fields, rfl⟩ := hd
    obtain ⟨fault, hn, hr⟩ := h.exists_fault
    rw [modeOf] at hm
    simp only [normalize, hm, hn, hr]

theorem normalize_cases (settings : Settings) (data : Json) :
    (∃ m, NormalizeFault settings data m) ∨ IsSuccess (normalize settings data) := by
  by_cases hd : IsObject data
  · cases hm : modeOf settings data with
    | none => exact .inl ⟨_, .unknownMode hd hm⟩
    | some mode =>
      cases hn : normalized data with
      | error fault =>
        obtain ⟨m, h, -⟩ := exists_trouble hn
        exact .inl ⟨m, .grammar hd hm h⟩
      | ok r =>
        obtain ⟨fields, rfl⟩ := hd
        rw [modeOf] at hm
        simp only [normalize, hm, hn]
        exact .inr isSuccess_record
  · exact .inl ⟨_, .body hd⟩

theorem normalize_eq_refusal_iff : normalize settings data = refusal m ↔
    NormalizeFault settings data m := by
  refine ⟨fun h ↦ ?_, normalize_of_fault⟩
  obtain ⟨m', hm⟩ | hs := normalize_cases settings data
  · exact refusal_inj (h.symm.trans (normalize_of_fault hm)) ▸ hm
  · exact absurd (h ▸ hs) not_isSuccess_refusal

theorem isSuccess_normalize_iff : IsSuccess (normalize settings data) ↔
    ∀ m, ¬NormalizeFault settings data m := by
  refine ⟨fun h m hm ↦ not_isSuccess_refusal (normalize_of_fault hm ▸ h), fun h ↦ ?_⟩
  exact (normalize_cases settings data).resolve_left fun ⟨m, hm⟩ ↦ h m hm

theorem generate_eq_refusal_iff : generate settings data = .ok (refusal m) ↔
    GenerateFault settings data m := by
  refine ⟨fun h ↦ ?_, generate_of_fault⟩
  obtain ⟨m', hm⟩ | ⟨b, hb⟩ | ⟨length, g, n, -, -, -, hr⟩ := generate_cases settings data
  · exact refusal_inj (Except.ok.inj (h.symm.trans (generate_of_fault hm))) ▸ hm
  · exact nomatch h.symm.trans (generate_of_breaksDown hb)
  · have hs : IsSuccess (listing settings g n length) := isSuccess_record
    exact absurd (Except.ok.inj (hr.symm.trans h) ▸ hs) not_isSuccess_refusal

theorem generate_eq_error_iff {b : Breakdown} : generate settings data = .error b ↔
    BreaksDown settings data b := by
  refine ⟨fun h ↦ ?_, generate_of_breaksDown⟩
  obtain ⟨m, hm⟩ | ⟨b', hb⟩ | ⟨length, g, n, -, -, -, hr⟩ := generate_cases settings data
  · exact nomatch h.symm.trans (generate_of_fault hm)
  · exact Except.error.inj (h.symm.trans (generate_of_breaksDown hb)) ▸ hb
  · exact nomatch h.symm.trans hr

theorem isSuccess_generate_iff :
    (∃ answer, generate settings data = .ok answer ∧ IsSuccess answer) ↔
    (∀ m, ¬GenerateFault settings data m) ∧ ∀ b, ¬BreaksDown settings data b := by
  constructor
  · rintro ⟨answer, h, hs⟩
    refine ⟨fun m hm ↦ ?_, fun b hb ↦ nomatch h.symm.trans (generate_of_breaksDown hb)⟩
    exact not_isSuccess_refusal (Except.ok.inj (h.symm.trans (generate_of_fault hm)) ▸ hs)
  · rintro ⟨hf, hb⟩
    obtain ⟨m, hm⟩ | ⟨b, h⟩ | ⟨length, g, n, -, -, -, hr⟩ := generate_cases settings data
    · exact absurd hm (hf m)
    · exact absurd h (hb b)
    · exact ⟨_, hr, isSuccess_record⟩

/-- A request is refused with a message exactly if that is what is wrong with it, and else it
succeeds. Only a request for words can break down instead, if its length is infinite or the settings
have no number for its bound. -/
theorem requests_are_answered (settings : Settings) (data : Json) :
    (∀ m, normalize settings data = refusal m ↔ NormalizeFault settings data m) ∧
    (IsSuccess (normalize settings data) ↔ ∀ m, ¬NormalizeFault settings data m) ∧
    (∀ m, generate settings data = .ok (refusal m) ↔ GenerateFault settings data m) ∧
    (∀ b, generate settings data = .error b ↔ BreaksDown settings data b) ∧
    ((∃ answer, generate settings data = .ok answer ∧ IsSuccess answer) ↔
      (∀ m, ¬GenerateFault settings data m) ∧ ∀ b, ¬BreaksDown settings data b) :=
  ⟨fun _ ↦ normalize_eq_refusal_iff, isSuccess_normalize_iff, fun _ ↦ generate_eq_refusal_iff,
    fun _ ↦ generate_eq_error_iff, isSuccess_generate_iff⟩

/-- A number too great for a floating one is read as infinite. -/
def endlessRequest : Json :=
  readBody "application/json" "\x7b\"text\": \"S -> a\", \"max_length\": 1e999\x7d"

theorem not_all_requests_are_answered :
    ¬∀ (settings : Settings) (contentType raw : String), ∃ answer,
      generate settings (readBody contentType raw) = .ok answer ∧
      ∃ b, answer.field? "success" = some (.bool b) := by
  intro h
  obtain ⟨answer, ha, -⟩ : ∃ answer, generate .standard endlessRequest = .ok answer ∧ _ :=
    h .standard _ _
  have hb : (generate .standard endlessRequest).toOption.isSome = false := by decide +kernel
  rw [ha] at hb
  exact nomatch hb

end Service

end ChomskyNormalForm
