import Meldbase.Database.NumberText
import Meldbase.Library.Calendar
import Meldbase.Library.Json

/-! # Scalars as wire text

How `encoding/json` quotes Go strings, and the texts of integers and timestamps:
each with the reader that the wire decoder uses on it.
-/
namespace Meldbase.Database
open Unicode Decimal Json

/-! ### Strings -/

def goEscape (c : Char) : List Char :=
  if c = '"' ∨ c = '\\' then ['\\',c]
  else if c = '\x08' then ['\\','b']
  else if c = '\x0c' then ['\\','f']
  else if c = '\n' then ['\\','n']
  else if c = '\r' then ['\\','r']
  else if c = '\t' then ['\\','t']
  else if c.toNat < 0x20 ∨ c = '<' ∨ c = '>' ∨ c = '&' ∨ c.toNat = 0x2028 ∨ c.toNat = 0x2029 then unicodeEscape c.toNat
  else [c]

/-- A Go string as a JSON literal; a byte that starts no character becomes an
escaped U+FFFD. -/
def goQuote (s : Bytes) : List Char :=
  '"' :: ((runes s).flatMap (fun rune => rune.elim (unicodeEscape 0xfffd) goEscape) ++ ['"'])
def goRunes (s : Bytes) : List Char := (runes s).map (fun rune => rune.getD '�')

/-- The characters of a decoded JSON string; an unpaired surrogate becomes U+FFFD. -/
def goText (units : List (Fin 65536)) : List Char := (decodeUTF16 units).map (fun rune => rune.getD '�')

/-! ### Integers -/

def intText (i : ℤ) : List Char := signText (i < 0) ++ natDigits i.natAbs

variable (text : List Char)

def canonicalInteger : Bool :=
  text = ['0'] ||
    match (readSign text).2 with
    | [] => false
    | c::rest => c ≠ '0' && (c::rest).all isDigit
def parseInteger : ℤ := (if (readSign text).1 then -1 else 1) * digitsValue (readSign text).2
def readInteger : Option Int64 :=
  if canonicalInteger text && -2 ^ 63 ≤ parseInteger text && parseInteger text < 2 ^ 63 then
    some (Int64.ofInt (parseInteger text))
  else none

/-! ### Timestamps -/

def yearText (year : ℤ) : List Char :=
  signText (year < 0) ++ if year.natAbs < 10000 then fixedDigits 4 year.natAbs else natDigits year.natAbs

/-- The layout `2006-01-02T15:04:05.000Z`. -/
def timeText (milliseconds : ℤ) : List Char :=
  let date := Calendar.ofDays (milliseconds / 86400000)
  let clock := (milliseconds % 86400000).toNat
  yearText date.year ++ '-' :: (fixedDigits 2 date.month.toNat ++ '-' :: (fixedDigits 2 date.day.toNat ++ 'T' ::
    (fixedDigits 2 (clock / 3600000) ++ ':' :: (fixedDigits 2 (clock / 60000 % 60) ++ ':' ::
      (fixedDigits 2 (clock / 1000 % 60) ++ '.' :: (fixedDigits 3 (clock % 1000) ++ ['Z']))))))
def takeDigits (w : ℕ) (text : List Char) : Option (ℕ × List Char) :=
  if (text.take w).length = w ∧ (text.take w).all isDigit then some (digitsValue (text.take w),text.drop w) else none
def takeHour : Option (ℕ × List Char) :=
  match takeDigits 2 text with
  | some found => some found
  | none => takeDigits 1 text

/-- Three places after the point; a sign may stand in the first one. -/
def takeMilliseconds : Option (ℕ × List Char) :=
  match takeDigits 3 text with
  | some found => some found
  | none =>
    match text with
    | [] => none
    | c::rest =>
      match takeDigits 2 rest with
      | none => none
      | some (n,rest) => if c = '+' ∨ c = '-' ∧ n = 0 then some (n,rest) else none
def skipChar (allowed : Char → Bool) : List Char → Option (List Char)
  | [] => none
  | c::rest => if allowed c then some rest else none

/-- `time.Parse` with the wire layout: milliseconds after a point or a comma, and a
day of the month. -/
def readTime : Option ℤ := do
  let (year,text) ← takeDigits 4 text
  let text ← skipChar (fun c => c = '-') text
  let (month,text) ← takeDigits 2 text
  let text ← skipChar (fun c => c = '-') text
  let (day,text) ← takeDigits 2 text
  let text ← skipChar (fun c => c = 'T') text
  let (hour,text) ← takeHour text
  let text ← skipChar (fun c => c = ':') text
  let (minute,text) ← takeDigits 2 text
  let text ← skipChar (fun c => c = ':') text
  let (second,text) ← takeDigits 2 text
  let text ← skipChar (fun c => c = '.' || c = ',') text
  let (milliseconds,text) ← takeMilliseconds text
  if text = ['Z'] ∧ 1 ≤ month ∧ month ≤ 12 ∧ 1 ≤ day ∧ (day : ℤ) ≤ Calendar.daysInMonth year month ∧ hour < 24 ∧ minute < 60 ∧
    second < 60 then
    some (Calendar.toDays ⟨year,month,day⟩ * 86400000 + (((hour*60+minute) * 60+second) * 1000+milliseconds : ℕ))
  else none

end Meldbase.Database
