import Mathlib.Data.Int.Log
import Mathlib.Data.List.DropRight
import Meldbase.Database.IndexKey
import Meldbase.Database.Mutation
import Meldbase.Database.NumericOrder
import Meldbase.Library.Decimal

/-! # Numbers as text

A finite float is written with the fewest decimal digits that round to it, in the
layout of ECMAScript, which `encoding/json` follows.  Only the sign of a negative
zero depends on the writer.
-/
namespace Meldbase.Database
open Decimal

/-! ### The fewest digits -/

def decimalPoint (q : ℚ) : ℤ := Int.log 10 q+1
def digitCandidates (q : ℚ) (k : ℕ) : List ℕ :=
  let scaled := q * 10 ^ ((k : ℤ) - decimalPoint q)
  let down := ⌊scaled⌋.toNat
  if 2 * (scaled - down) ≤ 1 then [down,down+1] else [down+1,down]
def Float64.reads (f : Float64) (coefficient : ℕ) (exponent : ℤ) : Bool :=
  0 < coefficient && Float64.nearest ((if f.negative then -1 else 1) * (coefficient * 10 ^ exponent)) = f

/-- Tries more and more digits. -/
def Float64.shortestFrom (f : Float64) (q : ℚ) : ℕ → ℕ → ℕ × ℤ
  | 0,_ => (0,0)
  | fuel+1,k =>
    match (digitCandidates q k).find? (fun s => f.reads s (decimalPoint q - k)) with
    | some s => (s,decimalPoint q - k)
    | none => f.shortestFrom q fuel (k+1)
def Float64.shortest (f : Float64) (q : ℚ) : ℕ × ℤ := f.shortestFrom q (decimalPoint q+1074).toNat 1

/-! ### Texts -/

def trimZeros (ds : List Char) : List Char := ds.rdropWhile (fun c => c = '0')
def Float64.text (f : Float64) : List Char :=
  match f.value with
  | .finite v =>
    if v = 0 then ['0']
    else
      let digits := natDigits (f.shortest |v|).1
      signText f.negative ++ layout (trimZeros digits) ((f.shortest |v|).2+digits.length)
  | _ => []
def Float64.ofNumeral (x : Numeral) : Float64 :=
  if x.coefficient = 0 then if x.negative then .negativeZero else .zero
  else .nearest ((if x.negative then -1 else 1) * x.magnitude)

end Meldbase.Database
