import ChomskyNormalForm.Text.Character

namespace ChomskyNormalForm.Text

def trimBy (p : Char → Bool) (s : List Char) : List Char :=
  ((s.dropWhile p).reverse.dropWhile p).reverse

def trim (s : List Char) : List Char := trimBy isBlank s

def compact (s : List Char) : List Char := s.filter (!isBlank ·)

def trimmed (s : String) : String := .ofList (trim s.toList)

/-- The lines of a text; the empty line after a final break does not count. -/
def lines : List Char → List (List Char)
  | [] => []
  | '\r' :: '\n' :: r => [] :: lines r
  | c :: r =>
    if isLineBreak c then [] :: lines r
    else match lines r with
      | [] => [[c]]
      | l :: ls => (c :: l) :: ls

def splitAll (c : Char) : List Char → List (List Char)
  | [] => [[]]
  | d :: r => match splitAll c r with
    | [] => [[d]]
    | p :: ps => if d = c then [] :: p :: ps else (d :: p) :: ps

def splitArrow? : List Char → Option (List Char × List Char)
  | [] => none
  | '-' :: '>' :: r => some ([], r)
  | c :: r => (splitArrow? r).map fun (before, after) ↦ (c :: before, after)

def spellArrows (s : List Char) : List Char := s.flatMap fun c ↦ if c = '→' then ['-', '>'] else [c]

def withoutComment (s : List Char) : List Char := s.takeWhile (· ≠ '#')

def hexDigit (n : Nat) : Char := .ofNat (if n < 10 then 48 + n else 87 + n)

def hexDigits : Nat → Nat → List Char
  | 0, _ => []
  | width + 1, n => hexDigits width (n / 16) ++ [hexDigit (n % 16)]

def escapeLetter? (c : Char) : Option Char := [('\n', 'n'), ('\r', 'r'), ('\t', 't')].lookup c

def escapeCode (n : Nat) : List Char :=
  if n < 0x100 then 'x' :: hexDigits 2 n
  else if n < 0x10000 then 'u' :: hexDigits 4 n
  else 'U' :: hexDigits 8 n

def escape (quote c : Char) : List Char :=
  if c = quote ∨ c = '\\' then ['\\', c]
  else match escapeLetter? c with
    | some letter => ['\\', letter]
    | none => if isPrintable c then [c] else '\\' :: escapeCode c.toNat

def quoteFor (s : List Char) : Char :=
  if '\'' ∈ s ∧ '"' ∉ s then '"' else '\''

/-- The text in quotes, with the quote, the backslash and all that is not printable escaped. -/
def quoted (s : String) : String :=
  let cs := s.toList
  let q := quoteFor cs
  .ofList (q :: cs.flatMap (escape q) ++ [q])

end ChomskyNormalForm.Text
