import Meldbase.Database.WireText

/-! # The wire codec of values

Every value is an object with its type under `t` and its payload under `v`; the
fields of an object travel as a list of pairs in the order of their names.  The
decoder works on the syntax tree of the text, which the source scans again for
every nested value.
-/
namespace Meldbase.Database
open Comparison Unicode Decimal ByteText

def wireKind : Kind → List Char
  | .null => ['n','u','l','l']
  | .bool => ['b','o','o','l']
  | .int64 => ['i','n','t','6','4']
  | .float64 => ['n','u','m','b','e','r']
  | .string => ['s','t','r','i','n','g']
  | .binary => ['b','i','n','a','r','y']
  | .time => ['d','a','t','e']
  | .array => ['a','r','r','a','y']
  | .object => ['o','b','j','e','c','t']
  | .id => ['i','d']

variable (text : List Char)

def readKind : Option Kind := canonicalQueryTypes.find? (fun kind => wireKind kind = text)

/-! ### Encoding -/

def tagged (kind : Kind) (payload : Json Bytes) : Json Bytes :=
  .object [(utf8 ['t'],.string (utf8 (wireKind kind))),(utf8 ['v'],payload)]
def goNumber (f : Float64) : List Char := if f = .negativeZero then ['-','0'] else f.text
def wireEntry (entry : Bytes × Json Bytes) : Json Bytes := .array [.string entry.1,entry.2]

mutual
def encodeWireValue : Value → Option (Json Bytes)
  | .null => some (.object [(utf8 ['t'],.string (utf8 (wireKind .null)))])
  | .bool b => some (tagged .bool (.bool b))
  | .int i => some (tagged .int64 (.string (utf8 (intText i.toInt))))
  | .float f => if f.isFinite then some (tagged .float64 (.number (goNumber f))) else none
  | .string s => some (tagged .string (.string s))
  | .binary b => some (tagged .binary (.string (utf8 (base64Encode b))))
  | .time ms => some (tagged .time (.string (utf8 (timeText ms))))
  | .id id => some (tagged .id (.string (utf8 (hexEncode id.val))))
  | .array values => (encodeWireItems values).map (fun items => tagged .array (.array items))
  | .object fields =>
    if Document.validate fields then
      (encodeWireFields fields).map (fun entries => tagged .object (.array ((sortByName entries).map wireEntry)))
    else none
def encodeWireItems : List Value → Option (List (Json Bytes))
  | [] => some []
  | v::rest =>
    match encodeWireValue v,encodeWireItems rest with
    | some j,some items => some (j::items)
    | _,_ => none
def encodeWireFields : Document → Option (List (Bytes × Json Bytes))
  | [] => some []
  | (name,v) :: rest =>
    match encodeWireValue v,encodeWireFields rest with
    | some j,some entries => some ((name,j) :: entries)
    | _,_ => none

end

def marshalWireValue (v : Value) : Option Bytes := (encodeWireValue v).map (fun j => utf8 (j.print goQuote))

/-! ### Reading JSON into Go values

A JSON `null` leaves the zero value of the target. -/

abbrev WireJson := Json (List (Fin 65536))
def strictBool : WireJson → Option Bool
  | .bool b => some b
  | .null => some false
  | _ => none
def strictString : WireJson → Option (List Char)
  | .string text => some (goText text)
  | .null => some []
  | _ => none
def strictNumber : WireJson → Option Float64
  | .number literal =>
    match readNumeral literal with
    | some x => if (Float64.ofNumeral x).isFinite then some (.ofNumeral x) else none
    | none => none
  | .null => some .zero
  | _ => none
def strictArray : WireJson → Option (List WireJson)
  | .array items => some items
  | .null => some []
  | _ => none
def rawObject : WireJson → Option (List (List Char × WireJson))
  | .object members => some (members.map (fun m => (goText m.1,m.2)))
  | _ => none

/-- The value of a name; the last of equal names counts. -/
def rawField (name : List Char) (fields : List (List Char × WireJson)) : Option WireJson :=
  (fields.reverse.find? (fun field => field.1 = name)).map Prod.snd

mutual
/-- No duplicate keys and at most 128 levels of nesting. -/
def validateJSON (depth : ℕ) : WireJson → Bool
  | .array items => depth ≤ 128 && validateJSONItems (depth+1) items
  | .object members =>
    depth ≤ 128 && decide ((members.map (fun m => goText m.1)).Nodup) && validateJSONMembers (depth+1) members
  | _ => depth ≤ 128
def validateJSONItems (depth : ℕ) : List WireJson → Bool
  | [] => true
  | j::rest => validateJSON depth j && validateJSONItems depth rest
def validateJSONMembers (depth : ℕ) : List (List (Fin 65536) × WireJson) → Bool
  | [] => true
  | (_,j) :: rest => validateJSON depth j && validateJSONMembers depth rest

end

/-! ### Decoding -/

def parseDocumentID : Option DocumentID :=
  match hexDecode text with
  | some bytes => if h : bytes.length = 16 then some ⟨bytes,h⟩ else none
  | none => none

/-- A non-zero identifier in its canonical spelling. -/
def readDocumentID : Option DocumentID :=
  (parseDocumentID text).filter (fun id => !id.isZero && decide (hexEncode id.val = text))
def decodeWireEntry (decode : WireJson → Option Value) (document : Document) (entry : WireJson) : Option Document :=
  match strictArray entry with
  | some [name,value] =>
    match strictString name with
    | none => none
    | some key =>
      if validField (utf8 key) && (lookupField document (utf8 key)).isNone then
        (decode value).map (fun v => document ++ [(utf8 key,v)])
      else none
  | _ => none

variable (limits : QueryLimits)

def decodeWirePayload (decode : WireJson → Option Value) (raw : WireJson) : Kind → Option Value
  | .null => none
  | .bool => (strictBool raw).map .bool
  | .float64 => (strictNumber raw).map .float
  | .int64 => ((strictString raw).bind readInteger).map .int
  | .string => (strictString raw).map (fun text => .string (utf8 text))
  | .time => ((strictString raw).bind readTime).map .time
  | .binary => ((strictString raw).bind base64Decode).map .binary
  | .id => ((strictString raw).bind readDocumentID).map .id
  | .array =>
    match strictArray raw with
    | none => none
    | some items => if limits.maxArrayItems < items.length then none else (items.mapM decode).map .array
  | .object =>
    match strictArray raw with
    | none => none
    | some entries =>
      if limits.maxArrayItems < entries.length then none else (entries.foldlM (decodeWireEntry decode) []).map .object

/-- Decodes a tagged value with the given levels of nesting left; the source
refuses a depth above 64. -/
def decodeWireValue (limits : QueryLimits) : ℕ → WireJson → Option Value
  | 0,_ => none
  | levels+1,j =>
    match rawObject j with
    | none => none
    | some fields =>
      if !fields.all (fun field => field.1 = ['t'] || field.1 = ['v']) then none
      else
        match (rawField ['t'] fields).bind strictString with
        | none => none
        | some text =>
          match readKind text,rawField ['v'] fields with
          | some .null,none => some .null
          | some kind,some raw =>
            (decodeWirePayload limits (decodeWireValue limits levels) raw kind).filter
              (fun v => wireValueBytes v ≤ limits.maxValueBytes)
          | _,_ => none
def wireLevels : ℕ := 65
def normalizedLimits : QueryLimits :=
  let set (value default : ℕ) := if value = 0 then default else value
  { maxWireBytes := set limits.maxWireBytes defaultQueryLimits.maxWireBytes
    maxDepth := set limits.maxDepth defaultQueryLimits.maxDepth
    maxNodes := set limits.maxNodes defaultQueryLimits.maxNodes
    maxArrayItems := set limits.maxArrayItems defaultQueryLimits.maxArrayItems
    maxValueBytes := set limits.maxValueBytes defaultQueryLimits.maxValueBytes
    maxSortFields := set limits.maxSortFields defaultQueryLimits.maxSortFields
    maxLimit := set limits.maxLimit defaultQueryLimits.maxLimit }
def unmarshalWireValue (data : Bytes) (limits : QueryLimits) : Option Value :=
  if (normalizedLimits limits).maxWireBytes < data.length then none
  else
    match Json.parse (goRunes data) with
    | none => none
    | some j => if validateJSON 0 j then decodeWireValue (normalizedLimits limits) wireLevels j else none

end Meldbase.Database
