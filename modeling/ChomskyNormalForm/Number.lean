namespace ChomskyNormalForm.Number

structure Decimal where
  digits : Nat
  exponent : Int
  deriving DecidableEq

def timesPower (m b : Nat) (e : Int) : Nat := m * b.pow e.toNat

def compareScaled (a : Nat) (i : Int) (b : Nat) (j : Int) : Ordering :=
  compare (timesPower (timesPower a 10 i) 2 (-j)) (timesPower (timesPower b 2 j) 10 (-i))

def roundQuotient (num den : Nat) : Nat :=
  let q := num / den
  match compare (2 * (num % den)) den with
  | .lt => q
  | .gt => q + 1
  | .eq => if q % 2 = 0 then q else q + 1

def Decimal.stripZeros : Nat → Decimal → Decimal
  | 0, d => d
  | fuel + 1, d =>
    if d.digits ≠ 0 ∧ d.digits % 10 = 0 then Decimal.stripZeros fuel ⟨d.digits / 10, d.exponent + 1⟩
      else d

/-- A value of the 64-bit binary format; a finite one is `m * 2 ^ q` up to its sign, where `m` has
53 bits unless `q` is the least exponent. -/
inductive Binary64 where
  | finite (negative : Bool) (m : Nat) (q : Int)
  | infinite (negative : Bool)
  | nan
  deriving DecidableEq

namespace Binary64

def leastExponent : Int := -1074
def greatestExponent : Int := 971

def leastFull : Nat := 0x10000000000000

def zero (negative : Bool) : Binary64 := .finite negative 0 leastExponent

def ofQuotient (negative : Bool) (num den : Nat) : Binary64 :=
  let size : Int := num.log2 - den.log2
  let narrow := compare (timesPower num 2 (-size)) (timesPower den 2 size) == .lt
  let q := max leastExponent (size - (if narrow then 53 else 52))
  let m := roundQuotient (timesPower num 2 (-q)) (timesPower den 2 q)
  let (m, q) := if m = 2 * leastFull then (leastFull, q + 1) else (m, q)
  if greatestExponent < q then .infinite negative else .finite negative m q

/-- The value nearest to a decimal. Decimals far outside the range are settled by their exponent. -/
def ofDecimal (negative : Bool) (d : Decimal) : Binary64 :=
  if d.digits = 0 then zero negative
  else if 310 < d.exponent then .infinite negative
  else if d.digits.log2 + 1 + 3 * d.exponent < -1100 then zero negative
  else ofQuotient negative (timesPower d.digits 10 d.exponent) (timesPower 1 10 (-d.exponent))

def wholePart (m : Nat) (q : Int) : Nat := timesPower m 2 q / timesPower 1 2 (-q)

def isZero : Binary64 → Bool
  | finite _ 0 _ => true
  | _ => false

def compareWhole (n : Int) : Binary64 → Option Ordering
  | finite negative m q =>
    let size : Int := timesPower m 2 q
    some (compare (n * timesPower 1 2 (-q)) (if negative then -size else size))
  | infinite negative => some (if negative then .gt else .lt)
  | nan => none

/-- The decimal lies among the reals that round to `m * 2 ^ q`. The gap below a power of two is half
as wide as the one above it. -/
def readsBack (m : Nat) (q : Int) (d : Decimal) : Bool :=
  let low := if m = leastFull ∧ leastExponent < q then 4 * m - 1 else 4 * m - 2
  let fromLow := compareScaled d.digits d.exponent low (q - 2)
  let fromHigh := compareScaled d.digits d.exponent (4 * m + 2) (q - 2)
  let closed := m % 2 == 0
  (fromLow == .gt || closed && fromLow == .eq) && (fromHigh == .lt || closed && fromHigh == .eq)

def scale (m : Nat) (q : Int) : Int :=
  let estimate := ((m.log2 + q) * 30103).fdiv 100000
  let candidates := [estimate - 1, estimate, estimate + 1, estimate + 2]
  (candidates.find? fun k ↦ compareScaled 1 k m q == .gt).getD (estimate + 3)

def nextTo? (m : Nat) (q g : Int) : Option Decimal :=
  let below := timesPower (timesPower m 2 q) 10 (-g) / timesPower (timesPower 1 2 (-q)) 10 g
  let down : Decimal := ⟨below, g⟩
  let up : Decimal := ⟨below + 1, g⟩
  match readsBack m q down, readsBack m q up with
  | true, false => some down
  | false, true => some up
  | false, false => none
  | true, true => match compareScaled (2 * below + 1) g (2 * m) q with
    | .gt => some down
    | .lt => some up
    | .eq => some (if below % 2 = 0 then down else up)

/-- The fewest digits that read back as `m * 2 ^ q`, for `m` above zero; if seventeen do not
suffice, the exact value. -/
def shortest (m : Nat) (q : Int) : Decimal :=
  let k := scale m q
  let exact : Decimal := if 0 ≤ q then ⟨timesPower m 2 q, 0⟩ else ⟨timesPower m 5 (-q), q⟩
  let found := (List.range 17).findSome? fun n ↦ nextTo? m q (k - (n + 1 : Nat))
  let d := found.getD exact
  d.stripZeros d.digits.log2

end Binary64

structure Layout where
  /-- exponents of the leading digit from here on are written with a plain point -/
  plainFrom : Int
  /-- exponents of the leading digit from here on are written in scientific form -/
  plainBelow : Int
  /-- the least number of digits of an exponent -/
  exponentWidth : Nat
  nan : String
  infinity : String

namespace Layout

def zeros (n : Nat) : List Char := List.replicate n '0'

def plain (digits : List Char) (exponent : Int) : List Char :=
  let point := digits.length + exponent
  if point ≤ 0 then '0' :: '.' :: zeros (-point).toNat ++ digits
  else if digits.length ≤ point then digits ++ zeros exponent.toNat ++ ['.', '0']
  else digits.take point.toNat ++ '.' :: digits.drop point.toNat

def scientific (layout : Layout) (digits : List Char) (exponent : Int) : List Char :=
  let lead := digits.length + exponent - 1
  let power := Nat.toDigits 10 lead.natAbs
  let fraction := if digits.length ≤ 1 then [] else '.' :: digits.drop 1
  digits.take 1 ++ fraction ++ 'e' :: (if lead < 0 then '-' else '+') ::
    zeros (layout.exponentWidth - power.length) ++ power

def magnitude (layout : Layout) (d : Decimal) : List Char :=
  let digits := Nat.toDigits 10 d.digits
  let lead := digits.length + d.exponent - 1
  if layout.plainFrom ≤ lead ∧ lead < layout.plainBelow then plain digits d.exponent
  else layout.scientific digits d.exponent

def signed (negative : Bool) (text : List Char) : List Char :=
  if negative then '-' :: text else text

def write (layout : Layout) : Binary64 → String
  | .nan => layout.nan
  | .infinite negative => .ofList (signed negative layout.infinity.toList)
  | .finite negative 0 _ => .ofList (signed negative ['0', '.', '0'])
  | .finite negative m q => .ofList (signed negative (layout.magnitude (Binary64.shortest m q)))

end Layout

end ChomskyNormalForm.Number
