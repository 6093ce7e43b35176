import ChomskyNormalForm.Json.Basic

namespace ChomskyNormalForm.Json

def escape (c : Char) : List Char :=
  if c = '"' ∨ c = '\\' then ['\\', c]
  else match Text.escapeLetter? c with
    | some letter => ['\\', letter]
    | none => if c.toNat < 0x20 then '\\' :: 'u' :: Text.hexDigits 4 c.toNat else [c]

def literal (s : String) : String := .ofList ('"' :: s.toList.flatMap escape ++ ['"'])

def textLayout : Number.Layout := { numberLayout with nan := "NaN", infinity := "Infinity" }

def scalarText : Json → String
  | null => "null"
  | bool b => if b then "true" else "false"
  | int n => toString n
  | float x => textLayout.write x
  | string s => literal s
  | array _ | object _ => ""

def nameText : Json → String
  | string s => literal s
  | j => literal j.scalarText

mutual

def pieces : Json → List String
  | array items => "[" :: itemPieces items ++ ["]"]
  | object fields => "\x7b" :: fieldPieces fields ++ ["\x7d"]
  | j => [j.scalarText]

def itemPieces : List Json → List String
  | [] => []
  | [j] => j.pieces
  | j :: rest => j.pieces ++ "," :: itemPieces rest

def fieldPieces : List (Json × Json) → List String
  | [] => []
  | [(name, j)] => name.nameText :: ":" :: j.pieces
  | (name, j) :: rest => name.nameText :: ":" :: j.pieces ++ "," :: fieldPieces rest

end

def text (j : Json) : String := String.join j.pieces

def newline (depth : Nat) : String := .ofList ('\n' :: List.replicate (2 * depth) ' ')

mutual

def layout (depth : Nat) : Json → String
  | array [] => "[]"
  | array (j :: rest) => "[" ++ itemsLayout (depth + 1) (j :: rest) ++ newline depth ++ "]"
  | object [] => "\x7b\x7d"
  | object (f :: rest) => "\x7b" ++ fieldsLayout (depth + 1) (f :: rest) ++ newline depth ++ "\x7d"
  | j => j.text

def itemsLayout (depth : Nat) : List Json → String
  | [] => ""
  | [j] => newline depth ++ j.layout depth
  | j :: rest => newline depth ++ j.layout depth ++ "," ++ itemsLayout depth rest

def fieldsLayout (depth : Nat) : List (Json × Json) → String
  | [] => ""
  | [(name, j)] => newline depth ++ name.nameText ++ ": " ++ j.layout depth
  | (name, j) :: rest =>
    newline depth ++ name.nameText ++ ": " ++ j.layout depth ++ "," ++ fieldsLayout depth rest

end

end ChomskyNormalForm.Json
