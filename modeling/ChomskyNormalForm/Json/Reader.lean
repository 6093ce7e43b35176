import ChomskyNormalForm.Json.Basic
import ChomskyNormalForm.Text.Encoding

namespace ChomskyNormalForm.Json.Reader

def isSpace (c : Char) : Bool := c == ' ' || c == '\t' || c == '\n' || c == '\r'

def skipSpace (cs : List Char) : List Char := cs.dropWhile isSpace

def hexValue? (c : Char) : Option Nat :=
  if '0' ≤ c ∧ c ≤ '9' then some (c.toNat - 48)
  else if 'a' ≤ c ∧ c ≤ 'f' then some (c.toNat - 87)
  else if 'A' ≤ c ∧ c ≤ 'F' then some (c.toNat - 55)
  else none

def unit? (a b c d : Char) : Option Nat := do
  let a ← hexValue? a
  let b ← hexValue? b
  let c ← hexValue? c
  let d ← hexValue? d
  return ((a * 16 + b) * 16 + c) * 16 + d

def unescape? : Char → Option Char
  | '"' => some '"'
  | '\\' => some '\\'
  | '/' => some '/'
  | 'b' => some '\x08'
  | 'f' => some '\x0c'
  | 'n' => some '\n'
  | 'r' => some '\r'
  | 't' => some '\t'
  | _ => none

def text : List Char → Option (List Char × List Char)
  | [] => none
  | '"' :: rest => some ([], rest)
  | '\\' :: 'u' :: a :: b :: c :: d :: '\\' :: 'u' :: e :: f :: g :: h :: rest =>
    match (do Text.ofSurrogates? (← unit? a b c d) (← unit? e f g h)) with
    | some x => (text rest).map fun (s, rest) ↦ (x :: s, rest)
    | none => do
      let n ← unit? a b c d
      let (s, rest) ← text ('\\' :: 'u' :: e :: f :: g :: h :: rest)
      return (Text.ofPoint n :: s, rest)
  | '\\' :: 'u' :: a :: b :: c :: d :: rest => do
    let n ← unit? a b c d
    let (s, rest) ← text rest
    return (Text.ofPoint n :: s, rest)
  | '\\' :: c :: rest => do
    let x ← unescape? c
    let (s, rest) ← text rest
    return (x :: s, rest)
  | c :: rest =>
    if c == '\\' || c.toNat < 0x20 then none else (text rest).map fun (s, rest) ↦ (c :: s, rest)

def digits (cs : List Char) : List Char × List Char :=
  (cs.takeWhile Char.isDigit, cs.dropWhile Char.isDigit)

def value10 (ds : List Char) : Nat := ds.foldl (fun n d ↦ 10 * n + (d.toNat - 48)) 0

def fraction (cs : List Char) : Option (List Char) × List Char :=
  match cs with
  | '.' :: rest => match digits rest with
    | ([], _) => (none, cs)
    | (ds, rest) => (some ds, rest)
  | _ => (none, cs)

def exponent (cs : List Char) : Option Int × List Char :=
  match cs with
  | e :: rest =>
    if e == 'e' || e == 'E' then
      let (negative, rest) := match rest with
        | '-' :: rest => (true, rest)
        | '+' :: rest => (false, rest)
        | _ => (false, rest)
      match digits rest with
      | ([], _) => (none, cs)
      | (ds, rest) =>
        let n : Int := value10 ds
        (some (if negative then -n else n), rest)
    else (none, cs)
  | [] => (none, cs)

def digitLimit : Nat := 4300

/-- A number after its sign. One with a point or an exponent is a floating one. -/
def number (negative : Bool) (cs : List Char) : Option (Json × List Char) :=
  let (whole, rest) := match cs with
    | '0' :: rest => (['0'], rest)
    | _ => digits cs
  if whole.isEmpty then none else
  let (places, rest) := fraction rest
  let (power, rest) := exponent rest
  match places, power with
  | none, none =>
    if digitLimit < whole.length then none else
    let n : Int := value10 whole
    some (.int (if negative then -n else n), rest)
  | _, _ =>
    let places := places.getD []
    some (.float (.ofDecimal negative ⟨value10 (whole ++ places), power.getD 0 - places.length⟩),
      rest)

def after? (start cs : List Char) : Option (List Char) :=
  if start.isPrefixOf cs then some (cs.drop start.length) else none

def words : List (List Char × Json) :=
  [(['n', 'u', 'l', 'l'], .null), (['t', 'r', 'u', 'e'], .bool true),
    (['f', 'a', 'l', 's', 'e'], .bool false), (['N', 'a', 'N'], .float .nan),
    (['I', 'n', 'f', 'i', 'n', 'i', 't', 'y'], .float (.infinite false)),
    (['-', 'I', 'n', 'f', 'i', 'n', 'i', 't', 'y'], .float (.infinite true))]

def scalar (cs : List Char) : Option (Json × List Char) :=
  match words.findSome? fun (w, j) ↦ (after? w cs).map (j, ·) with
  | some r => some r
  | none => match cs with
    | '-' :: rest => number true rest
    | _ => number false cs

mutual

/-- A value; `fuel` bounds the nesting and the number of items together. -/
def value : Nat → List Char → Option (Json × List Char)
  | 0, _ => none
  | fuel + 1, cs => match cs with
    | '"' :: rest => (text rest).map fun (s, rest) ↦ (.string (.ofList s), rest)
    | '[' :: rest => match skipSpace rest with
      | ']' :: rest => some (.array [], rest)
      | rest => (items fuel rest).map fun (js, rest) ↦ (.array js, rest)
    | '\x7b' :: rest => match skipSpace rest with
      | '\x7d' :: rest => some (.object [], rest)
      | rest => (fields fuel [] rest).map fun (fs, rest) ↦ (.object fs, rest)
    | _ => scalar cs

def items : Nat → List Char → Option (List Json × List Char)
  | 0, _ => none
  | fuel + 1, cs => do
    let (j, rest) ← value fuel cs
    match skipSpace rest with
    | ']' :: rest => return ([j], rest)
    | ',' :: rest =>
      let (js, rest) ← items fuel (skipSpace rest)
      return (j :: js, rest)
    | _ => none

def fields : Nat → List (Json × Json) → List Char → Option (List (Json × Json) × List Char)
  | 0, _, _ => none
  | fuel + 1, found, cs => match cs with
    | '"' :: rest => do
      let (name, rest) ← text rest
      let rest ← after? [':'] (skipSpace rest)
      let (j, rest) ← value fuel (skipSpace rest)
      let found := putField (.string (.ofList name)) j found
      match skipSpace rest with
      | '\x7d' :: rest => return (found, rest)
      | ',' :: rest => fields fuel found (skipSpace rest)
      | _ => none
    | _ => none

end

end Reader

def read? (s : String) : Option Json :=
  let cs := s.toList
  match Reader.value (2 * cs.length + 2) (Reader.skipSpace cs) with
  | some (j, rest) => if (Reader.skipSpace rest).isEmpty then some j else none
  | none => none

end ChomskyNormalForm.Json
