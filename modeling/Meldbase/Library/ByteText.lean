import Mathlib.Algebra.GroupWithZero.Nat
import Mathlib.Data.Fin.Basic

/-! # Bytes as text

Hexadecimal digits and base64 with padding, with the decoders that read them back:
a strict one, and the forgiving one that drops white space and the padding.
-/
namespace Meldbase.ByteText

instance byteNeZero : NeZero 256 := ⟨by decide⟩

/-! ### Hexadecimal -/

def hexDigit (n : ℕ) : Char := Char.ofNat (if n < 10 then 48+n else 87+n)
def hexValue (c : Char) : Option ℕ :=
  if 48 ≤ c.toNat ∧ c.toNat ≤ 57 then some (c.toNat - 48)
  else if 97 ≤ c.toNat ∧ c.toNat ≤ 102 then some (c.toNat - 87)
  else if 65 ≤ c.toNat ∧ c.toNat ≤ 70 then some (c.toNat - 55)
  else none
def hexEncode (bytes : List (Fin 256)) : List Char := bytes.flatMap (fun b => [hexDigit (b.val / 16),hexDigit (b.val % 16)])
def hexDecode : List Char → Option (List (Fin 256))
  | [] => some []
  | [_] => none
  | a::b::rest =>
    match hexValue a,hexValue b with
    | some a,some b => (hexDecode rest).map (fun bytes => Fin.ofNat 256 (a*16+b) :: bytes)
    | _,_ => none

/-! ### Base64 -/

def sextetChar (n : ℕ) : Char :=
  Char.ofNat (if n < 26 then 65+n else if n < 52 then 71+n else if n < 62 then n - 4 else if n = 62 then 43 else 47)
def charSextet (c : Char) : Option ℕ :=
  if 65 ≤ c.toNat ∧ c.toNat ≤ 90 then some (c.toNat - 65)
  else if 97 ≤ c.toNat ∧ c.toNat ≤ 122 then some (c.toNat - 71)
  else if 48 ≤ c.toNat ∧ c.toNat ≤ 57 then some (c.toNat+4)
  else if c = '+' then some 62
  else if c = '/' then some 63
  else none
def base64Encode : List (Fin 256) → List Char
  | [] => []
  | [a] => [sextetChar (a.val / 4),sextetChar (a.val % 4 * 16),'=','=']
  | [a,b] => [sextetChar (a.val / 4),sextetChar (a.val % 4 * 16 + b.val / 16),sextetChar (b.val % 16 * 4),'=']
  | a::b::c::rest =>
    sextetChar (a.val / 4) :: sextetChar (a.val % 4 * 16 + b.val / 16) :: sextetChar (b.val % 16 * 4 + c.val / 64) ::
      sextetChar (c.val % 64) :: base64Encode rest
def firstByte (a b : ℕ) : Fin 256 := Fin.ofNat 256 (a*4 + b / 16)
def secondByte (b c : ℕ) : Fin 256 := Fin.ofNat 256 (b % 16 * 16 + c / 4)
def thirdByte (c d : ℕ) : Fin 256 := Fin.ofNat 256 (c % 4 * 64+d)
def decodeGroups : List Char → Option (List (Fin 256))
  | [] => some []
  | a::b::c::d::rest =>
    match charSextet a,charSextet b with
    | some a,some b =>
      if c = '=' ∧ d = '=' then if rest = [] ∧ b % 16 = 0 then some [firstByte a b] else none
      else
        match charSextet c with
        | none => none
        | some c =>
          if d = '=' then if rest = [] ∧ c % 4 = 0 then some [firstByte a b,secondByte b c] else none
          else
            match charSextet d with
            | none => none
            | some d => (decodeGroups rest).map (fun bytes => firstByte a b :: secondByte b c :: thirdByte c d::bytes)
    | _,_ => none
  | _ => none

/-- Strict decoding; line breaks are skipped. -/
def base64Decode (text : List Char) : Option (List (Fin 256)) := decodeGroups (text.filter (fun c => c ≠ '\r' && c ≠ '\n'))

end Meldbase.ByteText
