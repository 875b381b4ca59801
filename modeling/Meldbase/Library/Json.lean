import Meldbase.Library.Decimal
import Meldbase.Library.Unicode

/-! # JSON texts

Syntax trees of JSON over an arbitrary type of strings, their compact printing with
a given way to quote strings, and a parser.  The parser reads strings as UTF-16
code units, which is what escapes denote; numbers keep their literal.
-/
namespace Meldbase

inductive Json (T : Type) where
  | null
  | bool (b : Bool)
  | number (literal : List Char)
  | string (text : T)
  | array (items : List (Json T))
  | object (members : List (T × Json T))

namespace Json
open Unicode Decimal ByteText
variable {T : Type}

/-! ### Printing -/

mutual
/-- The compact text of a tree. -/
def print (quote : T → List Char) : Json T → List Char
  | .null => ['n','u','l','l']
  | .bool true => ['t','r','u','e']
  | .bool false => ['f','a','l','s','e']
  | .number literal => literal
  | .string text => quote text
  | .array items => '[' :: printItems quote items
  | .object members => '{' :: printMembers quote members
def printItems (quote : T → List Char) : List (Json T) → List Char
  | [] => [']']
  | j::rest => print quote j ++ printMoreItems quote rest
def printMoreItems (quote : T → List Char) : List (Json T) → List Char
  | [] => [']']
  | j::rest => ',' :: (print quote j ++ printMoreItems quote rest)
def printMembers (quote : T → List Char) : List (T × Json T) → List Char
  | [] => ['}']
  | (name,j) :: rest => quote name ++ ':' :: (print quote j ++ printMoreMembers quote rest)
def printMoreMembers (quote : T → List Char) : List (T × Json T) → List Char
  | [] => ['}']
  | (name,j) :: rest => ',' :: (quote name ++ ':' :: (print quote j ++ printMoreMembers quote rest))

end

/-! ### Scanning -/

variable (c : Char)

def isSpace : Bool := c = ' ' || c = '\t' || c = '\n' || c = '\r'

variable (s : List Char)

def skipSpace : List Char := s.dropWhile isSpace
def hexUnit (a b c d : Char) : Option (Fin 65536) :=
  match hexValue a,hexValue b,hexValue c,hexValue d with
  | some a,some b,some c,some d => some (Fin.ofNat 65536 (((a*16+b) * 16+c) * 16+d))
  | _,_,_,_ => none
def simpleEscape : Option (Fin 65536) :=
  if c = '"' then some 0x22
  else if c = '\\' then some 0x5c
  else if c = '/' then some 0x2f
  else if c = 'b' then some 0x08
  else if c = 'f' then some 0x0c
  else if c = 'n' then some 0x0a
  else if c = 'r' then some 0x0d
  else if c = 't' then some 0x09
  else none
def scanString : List Char → Option (List (Fin 65536) × List Char)
  | [] => none
  | c::rest =>
    if c = '"' then some ([],rest)
    else if c = '\\' then
      match rest with
      | 'u'::a::b::c::d::rest =>
        match hexUnit a b c d with
        | some u => (scanString rest).map (fun r => (u::r.1,r.2))
        | none => none
      | e::rest =>
        match simpleEscape e with
        | some u => (scanString rest).map (fun r => (u::r.1,r.2))
        | none => none
      | [] => none
    else if c.toNat < 0x20 then none
    else (scanString rest).map (fun r => (utf16Units c.toNat ++ r.1,r.2))

/-- The rest of a text after a keyword. -/
def expect : List Char → List Char → Option (List Char)
  | [],s => some s
  | _::_,[] => none
  | k::keyword,c::rest => if k = c then expect keyword rest else none
def isNumberChar : Bool := isDigit c || c = '-' || c = '+' || c = '.' || c = 'e' || c = 'E'
def scanNumber : Option (List Char × List Char) :=
  if (readNumeral (s.takeWhile isNumberChar)).isSome then some (s.takeWhile isNumberChar,s.dropWhile isNumberChar) else none

/-! ### Parsing -/

mutual
def parseValue : ℕ → List Char → Option (Json (List (Fin 65536)) × List Char)
  | 0,_ => none
  | fuel+1,s =>
    match skipSpace s with
    | [] => none
    | c::rest =>
      if c = '{' then (parseMembers fuel rest).map (fun r => (.object r.1,r.2))
      else if c = '[' then (parseItems fuel rest).map (fun r => (.array r.1,r.2))
      else if c = '"' then (scanString rest).map (fun r => (.string r.1,r.2))
      else if c = 't' then (expect ['r','u','e'] rest).map (fun r => (.bool true,r))
      else if c = 'f' then (expect ['a','l','s','e'] rest).map (fun r => (.bool false,r))
      else if c = 'n' then (expect ['u','l','l'] rest).map (fun r => (.null,r))
      else (scanNumber (c::rest)).map (fun r => (.number r.1,r.2))
def parseItems : ℕ → List Char → Option (List (Json (List (Fin 65536))) × List Char)
  | 0,_ => none
  | fuel+1,s =>
    if (skipSpace s).head? = some ']' then some ([],(skipSpace s).tail)
    else
      match parseValue fuel s with
      | none => none
      | some (j,rest) => (parseMoreItems fuel rest).map (fun r => (j::r.1,r.2))
def parseMoreItems : ℕ → List Char → Option (List (Json (List (Fin 65536))) × List Char)
  | 0,_ => none
  | fuel+1,s =>
    match skipSpace s with
    | [] => none
    | c::rest =>
      if c = ']' then some ([],rest)
      else if c = ',' then
        match parseValue fuel rest with
        | none => none
        | some (j,rest) => (parseMoreItems fuel rest).map (fun r => (j::r.1,r.2))
      else none

/-- A name, a colon and a value. -/
def parseMember : ℕ → List Char → Option ((List (Fin 65536) × Json (List (Fin 65536))) × List Char)
  | 0,_ => none
  | fuel+1,s =>
    match skipSpace s with
    | [] => none
    | c::rest =>
      if c = '"' then
        match scanString rest with
        | none => none
        | some (name,rest) =>
          match skipSpace rest with
          | [] => none
          | c::rest => if c = ':' then (parseValue fuel rest).map (fun r => ((name,r.1),r.2)) else none
      else none
def parseMembers : ℕ → List Char → Option (List (List (Fin 65536) × Json (List (Fin 65536))) × List Char)
  | 0,_ => none
  | fuel+1,s =>
    if (skipSpace s).head? = some '}' then some ([],(skipSpace s).tail)
    else
      match parseMember fuel s with
      | none => none
      | some (m,rest) => (parseMoreMembers fuel rest).map (fun r => (m::r.1,r.2))
def parseMoreMembers : ℕ → List Char → Option (List (List (Fin 65536) × Json (List (Fin 65536))) × List Char)
  | 0,_ => none
  | fuel+1,s =>
    match skipSpace s with
    | [] => none
    | c::rest =>
      if c = '}' then some ([],rest)
      else if c = ',' then
        match parseMember fuel rest with
        | none => none
        | some (m,rest) => (parseMoreMembers fuel rest).map (fun r => (m::r.1,r.2))
      else none

end

/-- One value and nothing else; every call of the parser consumes a character, so
that twice the length bounds the calls in a row. -/
def parse : Option (Json (List (Fin 65536))) :=
  match parseValue (2*s.length+1) s with
  | some (j,rest) => if skipSpace rest = [] then some j else none
  | none => none

/-! ### Quoting -/

/-- The escape of a code unit by four hexadecimal digits. -/
def unicodeEscape (n : ℕ) : List Char :=
  ['\\','u',hexDigit (n / 4096),hexDigit (n / 256 % 16),hexDigit (n / 16 % 16),hexDigit (n % 16)]

end Json
end Meldbase
