import ChomskyNormalForm.Form.Normal
import ChomskyNormalForm.Grammar.Notation
import ChomskyNormalForm.Json.Printer

namespace ChomskyNormalForm.Samples

def entry (lhs rhs : String) : Json := .record [("lhs", .string lhs), ("rhs", .string rhs)]

def circular : Json :=
  .array [entry "S" "A | B | eps", entry "A" "B", entry "B" "Cdb", entry "C" "A | bb"]

def reading : String :=
  match Grammar.read (.string "S") circular with
  | .ok g => (g.toJson.field "rules").layout 0 ++ "\n"
  | .error fault => "ERROR: " ++ fault.message ++ "\n"

def balanced : String := "S -> aSb | eps"

def flag : Option Bool → String
  | some b => (Json.bool b).quoted
  | none => Json.null.quoted

def normalizing : String :=
  match (do
    let g ← Grammar.readText balanced .null
    g.normalize : Except Fault Normalization) with
  | .ok n => n.grammar.text ++ s!"\nempty: {flag (some n.isEmpty)} infinite: {flag n.isInfinite}\n"
  | .error fault => "ERROR: " ++ fault.message ++ "\n"

end ChomskyNormalForm.Samples
