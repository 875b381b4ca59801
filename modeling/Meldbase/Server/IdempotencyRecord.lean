import Meldbase.Database.WireValue
import Meldbase.Library.Framing

/-! # Stored outcomes of RPC requests

A record of 128 header bytes names the owner and the expiry of a request, and its
recorded result or error follows.  Records are compared as bytes: the state byte
and the claim of a record can be read off its bytes without decoding it.
-/
namespace Meldbase.Server
open List Option
open Database Unicode FixedWidth Framing

/-- Fixed-size byte arrays of the source. -/
abbrev Token (n : ℕ) := {b : Bytes // b.length = n}
def Token.filled (n : ℕ) (b : Byte) : Token n := ⟨replicate n b,length_replicate⟩
def Token.isZero {n : ℕ} (t : Token n) : Bool := t.val.all (· = 0)
def Token.ofBytes (n : ℕ) (b : Bytes) : Option (Token n) := if h : b.length = n then some ⟨b,h⟩ else none

theorem Token.ofBytes_eq_some (h : Token.ofBytes n b = some t) : b = t.val := by
  unfold Token.ofBytes at h
  split_ifs at h with hlength
  cases h
  rfl

/-! ### Errors -/

def businessKind : Bytes := utf8 ['b','u','s','i','n','e','s','s']
def internalKind : Bytes := utf8 ['i','n','t','e','r','n','a','l']
def codeLetter (b : Byte) : Bool := 97 ≤ b.val && b.val ≤ 122
def codeByte (b : Byte) : Bool := codeLetter b || (48 ≤ b.val && b.val ≤ 57) || b.val = 95

/-- A letter and at most `most` further letters, digits and underscores. -/
def codeName (most : ℕ) : Bytes → Bool
  | [] => false
  | b::rest => codeLetter b && rest.length ≤ most && rest.all codeByte
def rpcInternalErrorCode (code : Bytes) : Bool := codeName 63 code

/-- Two or more names with dots between them. -/
def rpcBusinessErrorCode (code : Bytes) : Bool := 2 ≤ (splitPath code).length && (splitPath code).all (codeName 31)
def maxRPCErrorDataBytes : ℕ := 64*1024
def errorDataLimits : QueryLimits := ⟨maxRPCErrorDataBytes,64,2 ^ 20,2 ^ 20,maxRPCErrorDataBytes,0,0⟩
def canonicalWire (data : Bytes) (limits : QueryLimits) : Option Value :=
  (unmarshalWireValue data limits).filter (fun v => marshalWireValue v = some data)
def isObject : Value → Bool
  | .object _ => true
  | _ => false
def validRPCBusinessErrorData (data : Bytes) : Bool :=
  data.isEmpty || (data.length ≤ maxRPCErrorDataBytes && (canonicalWire data errorDataLimits).any isObject)
def validRecordedError (kind code data : Bytes) (status : ℕ) : Bool :=
  (kind = businessKind || kind = internalKind) && 400 ≤ status && status ≤ 599 &&
    (kind ≠ businessKind || (rpcBusinessErrorCode code && validRPCBusinessErrorData data)) &&
    (kind ≠ internalKind || (rpcInternalErrorCode code && data.isEmpty))

/-! ### Records -/

inductive RecordState where
  | pending
  | result
  | error
  | unknown
  deriving DecidableEq

def RecordState.code : RecordState → Byte
  | .pending => 1
  | .result => 2
  | .error => 3
  | .unknown => 4
def RecordState.ofCode (b : Byte) : Option RecordState :=
  [.pending,.result,.error,.unknown].find? (fun state => state.code = b)

theorem RecordState.ofCode_eq_some (h : RecordState.ofCode b = some state) : b = state.code := by
  simpa [eq_comm] using List.find?_some h

/-- Ownership, expiry in nanoseconds and the optional outcome of a request. -/
structure IdempotencyRecord where
  state : RecordState
  fingerprint : Token 32
  (sessionID claimID : Token 16)
  expiresAt : ℤ
  result : Bytes := []
  errorKind : Bytes := []
  errorCode : Bytes := []
  errorData : Bytes := []
  errorStatus : ℕ := 0
  deriving DecidableEq

/-- The first instant of year one. -/
def zeroTime : ℤ := -62135596800000000000
def unixMilli (t : ℤ) : ℤ := t / 1000000

namespace IdempotencyRecord
variable (r : IdempotencyRecord)

def hasError : Bool :=
  !(r.errorKind.isEmpty && r.errorCode.isEmpty && r.errorData.isEmpty && r.errorStatus = 0)
def valid : Bool :=
  r.expiresAt ≠ zeroTime && !r.sessionID.isZero && !r.claimID.isZero && (match r.state with
    | .result => !r.result.isEmpty && !r.hasError
    | .error => r.result.isEmpty && validRecordedError r.errorKind r.errorCode r.errorData r.errorStatus
    | _ => r.result.isEmpty && !r.hasError) &&
    r.errorKind.length ≤ 8 && r.errorCode.length ≤ 64 && r.result.length ≤ 16 * 2 ^ 20 &&
      r.errorData.length ≤ maxRPCErrorDataBytes
def payload : Bytes := if r.state = .error then r.errorData else r.result

end IdempotencyRecord

def recordMagic : Bytes := [77,69,76,68,82,80,67,49]
def ownerWidths : List ℕ := [8,2,1,1,4,8,32,16,16,2]

variable (r : IdempotencyRecord)

def ownerFields : List Bytes :=
  [recordMagic,littleEndian 2 2,[r.state.code],[0],littleEndian 4 128,littleEndian 8 (unixMilli r.expiresAt % 2 ^ 64).toNat,
    r.fingerprint.val,r.sessionID.val,r.claimID.val,littleEndian 2 r.errorStatus]
def lengthFields : List Bytes :=
  [[Fin.ofNat 256 r.errorKind.length],[0],littleEndian 2 r.errorCode.length,littleEndian 4 r.payload.length,List.replicate 30 0]

/-- Validates a request record and writes its current binary format. -/
def encodeRecord : Option Bytes :=
  if r.valid then some ((ownerFields r).flatten ++ ((lengthFields r).flatten ++ (r.errorKind ++ (r.errorCode ++ r.payload))))
  else none
def recordLengths (version : ℕ) (rest : Bytes) : Option (ℕ × ℕ × ℕ) :=
  if version = 1 then
    match splitFields [2,4,32] rest with
    | [code,payload,zeros] => if zeros.all (· = 0) then some (0,ofLittleEndian code,ofLittleEndian payload) else none
    | _ => none
  else if version = 2 then
    match splitFields [1,1,2,4,30] rest with
    | [kind,reserved,code,payload,zeros] =>
      if reserved = [0] && zeros.all (· = 0) then some (ofLittleEndian kind,ofLittleEndian code,ofLittleEndian payload) else none
    | _ => none
  else none
def toSigned (n : ℕ) : ℤ := if n < 2 ^ 63 then n else n - 2 ^ 64
def buildRecord (version kindLength codeLength : ℕ) (millis : ℤ) (state fingerprint session claim status body : Bytes) :
    Option IdempotencyRecord := do
  let state ← state.head?.bind RecordState.ofCode
  let fingerprint ← Token.ofBytes 32 fingerprint
  let session ← Token.ofBytes 16 session
  let claim ← Token.ofBytes 16 claim
  let kind := body.take kindLength
  let payload := body.drop (kindLength+codeLength)
  let record : IdempotencyRecord :=
    { state := state
      fingerprint := fingerprint
      sessionID := session
      claimID := claim
      expiresAt := millis*1000000
      result := if state = .error then [] else payload
      errorKind := if state = .error && version = 1 then internalKind else kind
      errorCode := (body.drop kindLength).take codeLength
      errorData := if state = .error then payload else []
      errorStatus := ofLittleEndian status }
  if record.valid then some record else none

/-- Reads a supported binary record and validates its contents. -/
def decodeRecord (encoded : Bytes) : Option IdempotencyRecord :=
  match splitFields ownerWidths encoded with
  | [magic,version,state,reserved,header,expiry,fingerprint,session,claim,status] =>
    if encoded.length < 128 || magic ≠ recordMagic || reserved ≠ [0] || ofLittleEndian header ≠ 128 then none
    else
      match recordLengths (ofLittleEndian version) (encoded.drop 90) with
      | none => none
      | some (kindLength,codeLength,payloadLength) =>
        if 8 < kindLength || 64 < codeLength || 16 * 2 ^ 20 < payloadLength ||
            128+kindLength+codeLength+payloadLength ≠ encoded.length || toSigned (ofLittleEndian expiry) ≤ 0 then none
        else
          buildRecord (ofLittleEndian version) kindLength codeLength (toSigned (ofLittleEndian expiry)) state fingerprint session
            claim status (encoded.drop 128)
  | _ => none

/-! ### What bytes say about their owner -/

def stateByte (b : Bytes) : Option Bytes := (splitFields ownerWidths b)[2]?
def claimBytes (b : Bytes) : Option Bytes := (splitFields ownerWidths b)[8]?

theorem ownerFields_split (rest : Bytes) : splitFields ownerWidths ((ownerFields r).flatten ++ rest) = ownerFields r :=
  splitFields_flatten (by simp [ownerFields,ownerWidths,recordMagic,r.fingerprint.2,r.sessionID.2,r.claimID.2]) rest

theorem encodeRecord_bytes {r : IdempotencyRecord} {b : Bytes} (h : encodeRecord r = some b) :
    stateByte b = some [r.state.code] ∧ claimBytes b = some r.claimID.val := by
  unfold encodeRecord at h
  split_ifs at h
  cases h
  rw [stateByte,claimBytes,ownerFields_split]
  exact ⟨rfl,rfl⟩

theorem decodeRecord_bytes {r : IdempotencyRecord} {b : Bytes} (h : decodeRecord b = some r) :
    stateByte b = some [r.state.code] ∧ claimBytes b = some r.claimID.val := by
  unfold decodeRecord at h
  split at h
  case h_2 => cases h
  rename_i magic version state reserved header expiry fingerprint session claim status hsplit
  have hone : state.length ≤ 1 := by
    simp only [ownerWidths,splitFields,List.cons.injEq] at hsplit
    rw [← hsplit.2.2.1]
    exact length_take_le _ _
  split_ifs at h
  split at h
  case h_1 => cases h
  split_ifs at h
  obtain ⟨st,hst,h⟩ := bind_eq_some_iff.mp h
  obtain ⟨_,-,h⟩ := bind_eq_some_iff.mp h
  obtain ⟨_,-,h⟩ := bind_eq_some_iff.mp h
  obtain ⟨owner,howner,h⟩ := bind_eq_some_iff.mp h
  obtain ⟨-,h⟩ := ite_none_right_eq_some.mp h
  cases h
  rw [stateByte,claimBytes,hsplit]
  refine ⟨?_,congrArg some (Token.ofBytes_eq_some howner)⟩
  obtain ⟨byte,hbyte,hcode⟩ := bind_eq_some_iff.mp hst
  obtain ⟨tail,rfl⟩ := List.head?_eq_some_iff.mp hbyte
  rw [length_cons] at hone
  rw [eq_nil_of_length_eq_zero (by omega : tail.length = 0),RecordState.ofCode_eq_some hcode]
  rfl

end Meldbase.Server
