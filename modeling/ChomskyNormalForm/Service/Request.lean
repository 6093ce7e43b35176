import ChomskyNormalForm.Grammar.Notation
import ChomskyNormalForm.Json.Reader
import ChomskyNormalForm.Text.Character

namespace ChomskyNormalForm.Service

def isHeaderBlank (c : Char) : Bool := c == ' ' || c == '\t'

def isJsonType (contentType : String) : Bool :=
  let media := (Text.trimBy isHeaderBlank (contentType.toList.takeWhile (· ≠ ';'))).map Char.toLower
  media = "application/json".toList ||
    "application/".toList.isPrefixOf media && "+json".toList.isSuffixOf media

def withoutMark (s : String) : String :=
  match s.toList with
  | '\ufeff' :: rest => .ofList rest
  | _ => s

/-- The text of a body whose bytes spell `raw` in UTF-8. Zeros among the first of them show that
they are meant as wider units. -/
def bodyText? (raw : String) : Option String :=
  let bytes := raw.toUTF8.data.toList.map UInt8.toNat
  match Text.Encoding.detect bytes with
  | .utf8 => some (withoutMark raw)
  | .utf16 bigEndian => (Text.units16? bigEndian bytes).map fun units ↦ .ofList (Text.ofUnits units)
  | .utf32 bigEndian => do return .ofList (← Text.ofPoints? (← Text.units32? bigEndian bytes))

/-- The body of a request. What cannot be read, or is `null`, counts as an object without fields. -/
def readBody (contentType raw : String) : Json :=
  match isJsonType contentType, (bodyText? raw).bind Json.read? with
  | true, some .null => .object []
  | true, some j => j
  | _, _ => .object []

def textField (data : Json) (name : String) : Except GrammarFault (Option String) :=
  match data.field name with
  | .null => .ok none
  | .string s => .ok (some s)
  | _ => .error (.fieldKind name)

/-- The grammar of a request, from its text if it has one, else from its productions. -/
def grammarOf (data : Json) : Except GrammarFault Grammar := do
  let text ← textField data "text"
  let start ← textField data "start"
  let start := Text.trimmed (start.getD "")
  match text.getD "" with
  | "" => Grammar.read (.string start) ((data.field? "productions").getD (.array []))
  | text => Grammar.readText text (.string start)

inductive WholeNumberFault where
  | noNumber
  | infinite
  deriving DecidableEq

/-- Blanks around a number: those of ASCII that move the cursor, and every other blank from U+007F
on. -/
def isMargin (c : Char) : Bool :=
  c == ' ' || 0x09 ≤ c.toNat && c.toNat ≤ 0x0d || 0x7f ≤ c.toNat && Text.isBlank c

def spacedDigits : List Char → Option (List Nat)
  | [] => none
  | [c] => (Text.digitValue? c).map ([·])
  | c :: '_' :: rest => do
    let d ← Text.digitValue? c
    return d :: (← spacedDigits rest)
  | c :: rest => do
    let d ← Text.digitValue? c
    return d :: (← spacedDigits rest)

def digitLimit : Nat := 4300

def ofText (s : String) : Option Int :=
  let cs := Text.trimBy isMargin s.toList
  let (negative, cs) := match cs with
    | '-' :: rest => (true, rest)
    | '+' :: rest => (false, rest)
    | _ => (false, cs)
  match spacedDigits cs with
  | none => none
  | some ds =>
    if digitLimit < ds.length then none else
    let n : Int := Text.decimalValue ds
    some (if negative then -n else n)

def wholeNumber : Json → Except WholeNumberFault Int
  | .float (.finite negative m q) =>
    let n : Int := Number.Binary64.wholePart m q
    .ok (if negative then -n else n)
  | .float (.infinite _) => .error .infinite
  | .string s => match ofText s with
    | some n => .ok n
    | none => .error .noNumber
  | j => match j.whole? with
    | some n => .ok n
    | none => .error .noNumber

/-- Whether a whole number is between zero and a bound. One that is not below zero is compared with
the bound, which only a number allows. -/
def isWithin? (bound : Json) (n : Int) : Option Bool :=
  if n < 0 then some false
  else match bound with
    | .float limit => some ((limit.compareWhole n).any (·.isLE))
    | j => j.whole?.map fun limit ↦ decide (n ≤ limit)

end ChomskyNormalForm.Service
