import ChomskyNormalForm.Form.Normal
import ChomskyNormalForm.Language.Words
import ChomskyNormalForm.Service.Request
import ChomskyNormalForm.Trace.Printer

namespace ChomskyNormalForm.Service

structure Settings where
  /-- which events show grammars if the request does not say -/
  snapshots : Json
  /-- the greatest length of words that a request may ask for -/
  maxLength : Json
  /-- how many words an answer lists -/
  maxStrings : Option Int

def Settings.standard : Settings := ⟨.string "delta", .int 6, some 25⟩

/-- What no handler expects. It ends a request without an answer. -/
inductive Breakdown where
  | infiniteLength
  /-- a bound of this kind does not compare with a whole number -/
  | unordered (kind : String)
  | uncaught (fault : Fault)

def Breakdown.message : Breakdown → String
  | infiniteLength => "cannot convert float infinity to integer"
  | unordered kind => s!"'<=' not supported between instances of 'int' and '{kind}'"
  | uncaught fault => fault.message

def refusal (message : String) : Json :=
  .record [("success", .bool false), ("message", .string message)]

def faultRefusal : Fault → Json
  | .grammar fault => refusal ("Grammar Error: " ++ fault.message)
  | fault => refusal ("Normalization Error: " ++ fault.message)

def notAnObject : Json := refusal "Grammar Error: Request body must be a JSON object."

def ping : Json := .record [("status", .string "OK"), ("message", .string "Server running")]

def normalized (data : Json) : Except Fault (Grammar × Normalization) := do
  let g ← grammarOf data
  return (g, ← g.normalize)

def modeNames : String := ", ".intercalate (SnapshotMode.all.map (·.name))

def normalize (settings : Settings) : Json → Json
  | .object fields =>
    let data := Json.object fields
    let snapshots := (data.field? "snapshots").getD settings.snapshots
    match SnapshotMode.ofJson? snapshots with
    | none => refusal s!"Unknown snapshot mode '{snapshots.shown}'. Use one of: {modeNames}."
    | some mode =>
      match normalized data with
      | .error fault => faultRefusal fault
      | .ok (_, n) =>
        let message :=
          if n.isEmpty then "The language is empty; normalization stopped after trimming."
          else "Grammar successfully converted to CNF."
        let trace := Trace.toJson Grammar.toJson mode n.session.trace.events.toList
        .record <| [("success", .bool true), ("message", .string message)] ++
          n.fields Grammar.toJson trace
  | _ => notAnObject

def wordList (words : List String) : Json := .array (words.map .string)

def generate (settings : Settings) : Json → Except Breakdown Json
  | .object fields =>
    let data := Json.object fields
    match wholeNumber ((data.field? "max_length").getD settings.maxLength) with
    | .error .infinite => .error .infiniteLength
    | .error .noNumber => .ok (refusal "max_length must be an integer.")
    | .ok length =>
      match isWithin? settings.maxLength length with
      | none => .error (.unordered settings.maxLength.kind)
      | some false => .ok (refusal s!"max_length must be between 0 and {settings.maxLength.shown}.")
      | some true =>
        match normalized data with
        | .error fault => .ok (faultRefusal fault)
        | .ok (g, n) => do
          let words ← (g.firstWords length settings.maxStrings).mapError .uncaught
          let normalWords ← if n.isEmpty then pure [] else
            (n.grammar.firstWords length settings.maxStrings).mapError .uncaught
          return .record [("success", .bool true), ("max_length", .int length),
            ("generated", wordList words), ("generated_cnf", wordList normalWords),
            ("cnf", n.grammar.toJson)]
  | _ => .ok notAnObject

end ChomskyNormalForm.Service
