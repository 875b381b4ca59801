import Meldbase.Library.ByteText

/-! # Unicode transformation formats

Characters as UTF-8 bytes and as UTF-16 code units.  Decoding is total: a position
where no character starts gives `none` and the next position is tried, so that
well-formed input is exactly what decodes without a gap.
-/
namespace Meldbase.Unicode

instance unitNeZero : NeZero 65536 := ⟨by decide⟩

/-! ### UTF-8 -/

def utf8Bytes (n : ℕ) : List (Fin 256) :=
  if n < 0x80 then [Fin.ofNat 256 n]
  else if n < 0x800 then [Fin.ofNat 256 (0xc0 + n / 64),Fin.ofNat 256 (0x80 + n % 64)]
  else if n < 0x10000 then
    [Fin.ofNat 256 (0xe0 + n / 4096),Fin.ofNat 256 (0x80 + n / 64 % 64),Fin.ofNat 256 (0x80 + n % 64)]
  else
    [Fin.ofNat 256 (0xf0 + n / 262144),Fin.ofNat 256 (0x80 + n / 4096 % 64),Fin.ofNat 256 (0x80 + n / 64 % 64),
      Fin.ofNat 256 (0x80 + n % 64)]
def utf8 (text : List Char) : List (Fin 256) := text.flatMap (fun c => utf8Bytes c.toNat)
def continues (b : Fin 256) : Bool := 0x80 ≤ b.val && b.val ≤ 0xbf

/-- The code point at the head of a byte sequence, with the number of bytes that
follow its first one: no overlong forms, no surrogates, nothing above U+10FFFF. -/
def decodeRune (a : Fin 256) (rest : List (Fin 256)) : Option (ℕ × ℕ) :=
  if a.val < 0x80 then some (a.val,0)
  else if 0xc2 ≤ a.val ∧ a.val ≤ 0xdf then
    match rest with
    | b::_ => if continues b then some ((a.val - 0xc0) * 64 + (b.val - 0x80),1) else none
    | _ => none
  else if 0xe0 ≤ a.val ∧ a.val ≤ 0xef then
    match rest with
    | b::c::_ =>
      if continues b && continues c && (a.val ≠ 0xe0 || 0xa0 ≤ b.val) && (a.val ≠ 0xed || b.val ≤ 0x9f) then
        some ((a.val - 0xe0) * 4096 + (b.val - 0x80) * 64 + (c.val - 0x80),2)
      else none
    | _ => none
  else if 0xf0 ≤ a.val ∧ a.val ≤ 0xf4 then
    match rest with
    | b::c::d::_ =>
      if continues b && continues c && continues d && (a.val ≠ 0xf0 || 0x90 ≤ b.val) && (a.val ≠ 0xf4 || b.val ≤ 0x8f) then
        some ((a.val - 0xf0) * 262144 + (b.val - 0x80) * 4096 + (c.val - 0x80) * 64 + (d.val - 0x80),3)
      else none
    | _ => none
  else none
def runesFrom : ℕ → List (Fin 256) → List (Option Char)
  | _,[] => []
  | skip+1,_::rest => runesFrom skip rest
  | 0,a::rest =>
    match decodeRune a rest with
    | some (n,more) => some (Char.ofNat n) :: runesFrom more rest
    | none => none :: runesFrom 0 rest
def runes (bytes : List (Fin 256)) : List (Option Char) := runesFrom 0 bytes

/-! ### UTF-16 -/

def utf16Units (n : ℕ) : List (Fin 65536) :=
  if n < 0x10000 then [Fin.ofNat 65536 n]
  else [Fin.ofNat 65536 (0xd800 + (n - 0x10000) / 1024),Fin.ofNat 65536 (0xdc00 + (n - 0x10000) % 1024)]
def highSurrogate (u : Fin 65536) : Bool := 0xd800 ≤ u.val && u.val ≤ 0xdbff
def lowSurrogate (u : Fin 65536) : Bool := 0xdc00 ≤ u.val && u.val ≤ 0xdfff

/-- The characters of a code unit sequence; an unpaired surrogate is a gap. -/
def decodeUTF16 : List (Fin 65536) → List (Option Char)
  | [] => []
  | [u] => [if highSurrogate u || lowSurrogate u then none else some (Char.ofNat u.val)]
  | u::v::rest =>
    if highSurrogate u then
      if lowSurrogate v then
        some (Char.ofNat (0x10000 + (u.val - 0xd800) * 1024 + (v.val - 0xdc00))) :: decodeUTF16 rest
      else none :: decodeUTF16 (v::rest)
    else if lowSurrogate u then none :: decodeUTF16 (v::rest)
    else some (Char.ofNat u.val) :: decodeUTF16 (v::rest)

end Meldbase.Unicode
