import ChomskyNormalForm.Grammar.Legal
import ChomskyNormalForm.Text.Basic

namespace ChomskyNormalForm

def epsilonMarks : List (List Char) := [['ε'], ['e', 'p', 's'], ['_']]

def Symbol.read (token : String) : Except GrammarFault Symbol :=
  let cs := Text.trim token.toList
  if cs ∈ epsilonMarks then .ok .epsilon
  else if isTerminalText cs then .ok (.terminal (.ofList cs))
  else if isVarName cs then .ok (.var (.ofList cs))
  else .error (.invalidSymbol (.ofList cs))

namespace Body

/-- Adds a character to the symbols read before it, the last of which comes first: a letter begins a
symbol, a digit goes on with the name of a variable. -/
def push (before : Body) (c : Char) : Except Char Body :=
  if c.isUpper then .ok (.var (.singleton c) :: before)
  else if c.isLower then .ok (.terminal (.singleton c) :: before)
  else match before with
    | .var name :: rest => if c.isDigit then .ok (.var (name.push c) :: rest) else .error c
    | _ => .error c

def scan (cs : List Char) : Except Char Body :=
  (cs.foldlM push []).map List.reverse

def isMark (c : Char) : Bool := c == 'ε' || c == '_'

/-- Reads a body written without separators. Blanks do not count, and neither do the marks `ε` and
`_` beside other symbols; a body with nothing else is the empty word. -/
def read (text : String) : Except GrammarFault Body :=
  let cs := Text.compact text.toList
  let kept := cs.filter (!isMark ·)
  if cs = ['e', 'p', 's'] ∨ kept = [] then .ok Body.epsilon
  else (scan kept).mapError (.invalidCharacter · text)

end Body

namespace Grammar

def readHead : Json → Except GrammarFault Symbol
  | .string s =>
    let name := Text.trim s.toList
    if name = [] then .error (.missingHead (.string s))
    else if Symbol.isVarName name then .ok (.var (.ofList name))
    else .error (.invalidHead (.ofList name))
  | j => .error (.missingHead j)

def readAlternatives (s : String) : Except GrammarFault (List Body) :=
  (Text.splitAll '|' s.toList).mapM fun part ↦ Body.read (.ofList part)

/-- A symbol of a body that is given as a list; a blank text stands for nothing. -/
def readToken (head : Symbol) : Json → Except GrammarFault (Option Symbol)
  | .string s =>
    if Text.trim s.toList = [] then .ok none else (Symbol.read s).map some
  | j => .error (.alternativeKind head j)

def readTokens (head : Symbol) (tokens : List Json) : Except GrammarFault Body := do
  let symbols ← tokens.mapM (readToken head)
  return Body.normalized (symbols.filterMap id)

def readItem (head : Symbol) : Json → Except GrammarFault (List Body)
  | .string s => readAlternatives s
  | .array tokens => (readTokens head tokens).map ([·])
  | j => .error (.alternativeKind head j)

def readBodies (head : Symbol) : Json → Except GrammarFault (List Body)
  | .string s => readAlternatives s
  | .array items => (items.mapM (readItem head)).map List.flatten
  | j => .error (.bodiesKind head j)

def readStart : Json → Except GrammarFault Symbol
  | .string s => if s = "" then .error .missingStart else readHead (.string s)
  | _ => .error .missingStart

def entriesOf : Json → Except GrammarFault (List (Json × Json))
  | .object fields => .ok fields
  | .array items => items.mapM fun
    | .object fields => .ok ((Json.object fields).field "lhs", (Json.object fields).field "rhs")
    | _ => .error .entryShape
  | _ => .error .productionsKind

def readEntry (e : Json × Json) : Except GrammarFault (Symbol × List Body) := do
  let head ← readHead e.1
  return (head, ← readBodies head e.2)

def assemble (start : Symbol) (entries : List (Json × Json)) : Except GrammarFault Grammar := do
  let rules ← entries.mapM readEntry
  if rules.isEmpty then throw .noRules
  let g : Grammar := ⟨start, .ofEntries rules⟩
  g.check
  return g

def read (start productions : Json) : Except GrammarFault Grammar := do
  let start ← readStart start
  assemble start (← entriesOf productions)

def readEntries (start : Json) (entries : List (Json × Json)) : Except GrammarFault Grammar := do
  assemble (← readStart start) entries

def readLine (line : List Char) (number : Nat) : Except GrammarFault (Option (Json × Json)) :=
  let cleaned := Text.spellArrows (Text.trim (Text.withoutComment line))
  if cleaned = [] then .ok none
  else match Text.splitArrow? cleaned with
    | none => .error (.missingArrow number (.ofList line))
    | some (lhs, rhs) =>
      let name := Text.trim lhs
      if name = [] then .error (.missingLineHead number)
      else .ok (some (.string (.ofList name), .string (.ofList rhs)))

/-- Reads a grammar written with one rule on a line. The start is the first left-hand side if none
is given. -/
def readText (text : String) (start : Json) : Except GrammarFault Grammar := do
  let entries ← ((Text.lines text.toList).zipIdx 1).mapM fun (line, number) ↦ readLine line number
  match entries.filterMap id with
  | [] => throw .noRules
  | (first, rhs) :: rest =>
    readEntries (if start.isGiven then start else first) ((first, rhs) :: rest)

def displayOrder (g : Grammar) : List Symbol :=
  if g.start ∈ g then g.start :: g.sortedHeads.filter (· ≠ g.start) else g.sortedHeads

def rowsIn (g : Grammar) (order : List Symbol) : List (String × List String) :=
  order.map fun v ↦ (v.text, (g.bodies v).map fun b ↦ b.text)

def rows (g : Grammar) : List (String × List String) := g.rowsIn g.displayOrder

def rawRows (g : Grammar) : List (String × List String) := g.rowsIn g.heads

def text (g : Grammar) : String :=
  "\n".intercalate (g.rows.map fun (name, bodies) ↦ name ++ " -> " ++ " | ".intercalate bodies)

def toJson (g : Grammar) : Json :=
  let rules := g.rows.map fun (name, bodies) ↦ (name, Json.array (bodies.map .string))
  .record [("start", .string g.start.text), ("rules", .record rules)]

def quoted (g : Grammar) : String :=
  "Grammar(start=" ++ Text.quoted g.start.text ++ ", rules=" ++
    (g.toJson.field "rules").quoted ++ ")"

end Grammar

end ChomskyNormalForm
