import ChomskyNormalForm.Number
import ChomskyNormalForm.Text.Basic

namespace ChomskyNormalForm

/-- A JSON value. Whole numbers and floating ones stay apart; an object keeps the order of its
fields. Where a value has not been read from a text, names of fields may be other values than
texts. -/
inductive Json where
  | null
  | bool (b : Bool)
  | int (n : Int)
  | float (x : Number.Binary64)
  | string (s : String)
  | array (items : List Json)
  | object (fields : List (Json × Json))

namespace Json

def record (fields : List (String × Json)) : Json :=
  object (fields.map fun (name, j) ↦ (string name, j))

def kind : Json → String
  | null => "NoneType"
  | bool _ => "bool"
  | int _ => "int"
  | float _ => "float"
  | string _ => "str"
  | array _ => "list"
  | object _ => "dict"

/-- Nothing, zero and whatever is empty do not count as given. -/
def isGiven : Json → Bool
  | null => false
  | bool b => b
  | int n => n ≠ 0
  | float x => !x.isZero
  | string s => s ≠ ""
  | array items => !items.isEmpty
  | object fields => !fields.isEmpty

def whole? : Json → Option Int
  | bool b => some (if b then 1 else 0)
  | int n => some n
  | _ => none

/-- Names are one if they are the same text, numbers of the same value, or both nothing. A `nan` is
one with itself. -/
def sameName : Json → Json → Bool
  | string s, string t => s == t
  | null, null => true
  | float x, float y => x == y || x.isZero && y.isZero
  | float x, j => j.whole?.any fun n ↦ x.compareWhole n == some .eq
  | j, float x => j.whole?.any fun n ↦ x.compareWhole n == some .eq
  | j, k => j.whole?.any fun n ↦ k.whole? == some n

/-- A field given again takes its new value and keeps its name and place. -/
def putField (name j : Json) : List (Json × Json) → List (Json × Json)
  | [] => [(name, j)]
  | f :: rest => if f.1.sameName name then (f.1, j) :: rest else f :: putField name j rest

def isNamed (name : String) : Json → Bool
  | string s => s == name
  | _ => false

def field? (name : String) : Json → Option Json
  | object fields => (fields.find? fun f ↦ f.1.isNamed name).map Prod.snd
  | _ => none

def field (name : String) (j : Json) : Json := (j.field? name).getD null

def numberLayout : Number.Layout where
  plainFrom := -4
  plainBelow := 16
  exponentWidth := 2
  nan := "nan"
  infinity := "inf"

mutual

def quoted : Json → String
  | null => "None"
  | bool true => "True"
  | bool false => "False"
  | int n => toString n
  | float x => numberLayout.write x
  | string s => Text.quoted s
  | array items => "[" ++ quotedItems items ++ "]"
  | object fields => "\x7b" ++ quotedFields fields ++ "\x7d"

def quotedItems : List Json → String
  | [] => ""
  | [j] => j.quoted
  | j :: rest => j.quoted ++ ", " ++ quotedItems rest

def quotedFields : List (Json × Json) → String
  | [] => ""
  | [(name, j)] => name.quoted ++ ": " ++ j.quoted
  | (name, j) :: rest => name.quoted ++ ": " ++ j.quoted ++ ", " ++ quotedFields rest

end

/-- As `quoted`, but a text that stands alone is shown as it is. -/
def shown : Json → String
  | string s => s
  | j => j.quoted

end Json

end ChomskyNormalForm
