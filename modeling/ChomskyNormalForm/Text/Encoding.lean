namespace ChomskyNormalForm.Text

inductive Encoding where
  | utf8
  | utf16 (bigEndian : Bool)
  | utf32 (bigEndian : Bool)
  deriving DecidableEq

/-- The encoding of a text that begins with ASCII characters: where its first bytes are zero, they
fill up wider units. -/
def Encoding.detect : List Nat → Encoding
  | [0, _] => utf16 true
  | [_, 0] => utf16 false
  | 0 :: 0 :: _ :: _ :: _ => utf32 true
  | 0 :: _ :: _ :: _ :: _ => utf16 true
  | _ :: 0 :: 0 :: 0 :: _ => utf32 false
  | _ :: 0 :: _ :: _ :: _ => utf16 false
  | _ => utf8

def ofBytes (bytes : List Nat) : Nat := bytes.foldl (fun n b ↦ 0x100 * n + b) 0

def ofUnitBytes (bigEndian : Bool) (bytes : List Nat) : Nat :=
  ofBytes (if bigEndian then bytes else bytes.reverse)

def units16? (bigEndian : Bool) : List Nat → Option (List Nat)
  | [] => some []
  | a :: b :: rest => (units16? bigEndian rest).map (ofUnitBytes bigEndian [a, b] :: ·)
  | _ => none

def units32? (bigEndian : Bool) : List Nat → Option (List Nat)
  | [] => some []
  | a :: b :: c :: d :: rest =>
    (units32? bigEndian rest).map (ofUnitBytes bigEndian [a, b, c, d] :: ·)
  | _ => none

def ofSurrogates? (high low : Nat) : Option Char :=
  if 0xd800 ≤ high ∧ high < 0xdc00 ∧ 0xdc00 ≤ low ∧ low < 0xe000 then
    some (.ofNat (0x10000 + (high - 0xd800) * 0x400 + (low - 0xdc00)))
  else none

/-- The character of a code point. Half a pair of surrogates is none and leaves the replacement
character. -/
def ofPoint (n : Nat) : Char :=
  if 0xd800 ≤ n ∧ n < 0xe000 then '\ufffd' else .ofNat n

def ofUnits : List Nat → List Char
  | [] => []
  | [n] => [ofPoint n]
  | high :: low :: rest => match ofSurrogates? high low with
    | some c => c :: ofUnits rest
    | none => ofPoint high :: ofUnits (low :: rest)

def ofPoints? (points : List Nat) : Option (List Char) :=
  if points.all (· < 0x110000) then some (points.map ofPoint) else none

end ChomskyNormalForm.Text
