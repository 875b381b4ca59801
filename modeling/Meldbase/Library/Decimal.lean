import Mathlib.Algebra.Order.Field.Rat

/-! # Decimal numerals

Digits of natural numbers, with and without a fixed width, and the numerals of
JSON: an optional sign, digits, a fraction and an exponent.  A numeral is laid out
from its significant digits and the position of the decimal point.
-/
namespace Meldbase.Decimal

/-! ### Digits -/

def digit (d : ℕ) : Char := Char.ofNat (48+d)
def isDigit (c : Char) : Bool := 48 ≤ c.toNat && c.toNat ≤ 57
def digitValue (c : Char) : ℕ := c.toNat - 48
def digitsValue (ds : List Char) : ℕ := ds.foldl (fun v c => 10*v+digitValue c) 0
def digitsFrom : ℕ → ℕ → List Char
  | 0,_ => []
  | fuel+1,n => if n < 10 then [digit n] else digitsFrom fuel (n / 10) ++ [digit (n % 10)]
def natDigits (n : ℕ) : List Char := digitsFrom (n+1) n
def fixedDigits : ℕ → ℕ → List Char
  | 0,_ => []
  | w+1,n => fixedDigits w (n / 10) ++ [digit (n % 10)]

/-! ### Numerals -/

/-- A signed coefficient with a power of ten. -/
structure Numeral where
  negative : Bool
  coefficient : ℕ
  exponent : ℤ
  deriving DecidableEq

def Numeral.magnitude (x : Numeral) : ℚ := x.coefficient * 10 ^ x.exponent
def signText (negative : Bool) : List Char := if negative then ['-'] else []
def readSign : List Char → Bool × List Char
  | [] => (false,[])
  | c::rest => if c = '-' then (true,rest) else (false,c::rest)
def readFraction : List Char → Option (List Char × List Char)
  | [] => some ([],[])
  | c::rest =>
    if c = '.' then
      if rest.takeWhile isDigit = [] then none else some (rest.takeWhile isDigit,rest.dropWhile isDigit)
    else some ([],c::rest)
def readExponent : List Char → Option ℤ
  | [] => some 0
  | c::rest =>
    if c = 'e' ∨ c = 'E' then
      match rest with
      | [] => none
      | sign::digits =>
        if sign = '-' then if digits ≠ [] ∧ digits.all isDigit then some (-(digitsValue digits : ℤ)) else none
        else if sign = '+' then if digits ≠ [] ∧ digits.all isDigit then some (digitsValue digits) else none
        else if (sign::digits).all isDigit then some (digitsValue (sign::digits)) else none
    else none
def readNumeral (text : List Char) : Option Numeral :=
  let (negative,body) := readSign text
  let whole := body.takeWhile isDigit
  if whole = [] ∨ whole.head? = some '0' ∧ whole.length ≠ 1 then none
  else
    match readFraction (body.dropWhile isDigit) with
    | none => none
    | some (fraction,rest) =>
      match readExponent rest with
      | none => none
      | some exponent => some ⟨negative,digitsValue (whole ++ fraction),exponent - fraction.length⟩

/-! ### Layouts -/

def exponentText (e : ℤ) : List Char := 'e' :: (if e < 0 then '-' else '+') :: natDigits e.natAbs

/-- Significant digits with the decimal point after the first `point` of them:
in full from seven places behind to twenty-one before the point, with an exponent
outside. -/
def layout (ds : List Char) (point : ℤ) : List Char :=
  if ds.length ≤ point ∧ point ≤ 21 then ds ++ List.replicate (point - ds.length).toNat '0'
  else if 0 < point ∧ point ≤ 21 then ds.take point.toNat ++ '.' :: ds.drop point.toNat
  else if -6 < point ∧ point ≤ 0 then '0' :: '.' :: (List.replicate (-point).toNat '0' ++ ds)
  else
    match ds with
    | [d] => d :: exponentText (point - 1)
    | ds => ds.take 1 ++ '.' :: (ds.drop 1 ++ exponentText (point - 1))

end Meldbase.Decimal
