import Meldbase.Library.Interleaving
import Meldbase.Server.IdempotencyRecord

/-! # The durable store of RPC requests

Requests are claimed, completed and pruned by compare-and-swap on private system
records.  Every operation of the store is a program over the atomic steps of the
database, so that sessions can be interleaved between any two of them.  A swap or a
composite commit may fail without an effect, and it may also report a failure after
its effect has become durable.
-/
namespace Meldbase.Server
open Logical (Catalog SystemRecordMutation SystemOutcome applySystemRecordMutation applySystemRecordMutation_applied
  getSystemRecord Sha256 sha256)
open Database Program
variable [Sha256]

/-! ### Requests and decisions -/

structure Claim where
  (scopeHash keyHash fingerprint : Token 32)
  (sessionID claimID : Token 16)
  expiresAt : ℤ
  deriving DecidableEq

inductive Decision where
  | execute
  | replayResult (result : Bytes)
  | replayError (kind code data : Bytes) (status : ℕ)
  | inProgress
  | outcomeUnknown
  | conflict
  deriving DecidableEq

structure Completion where
  claim : Claim
  result : Bytes := []
  errorKind : Bytes := []
  errorCode : Bytes := []
  errorData : Bytes := []
  errorStatus : ℕ := 0

inductive IdempotencyError where
  | invalidClaim
  | invalidRecord
  | invalidCompletion
  | corruptRecord
  | contention
  | ownershipChanged
  | pruneLimit
  | random
  | backend
  deriving DecidableEq

def rpcIdempotencyKeyPrefix : Bytes := [114,112,99,46,105,100,101,109,112,111,116,101,110,99,121,46,118,49,0]
def storageKey (c : Claim) : Bytes := rpcIdempotencyKeyPrefix ++ (c.scopeHash.val ++ c.keyHash.val)

/-! ### The database below

The records of requests share the system tree with the generations of policies,
which a business transaction may advance along with its writes. -/

def generationMutation (collection : Bytes) (generation : Token 16) : SystemRecordMutation where
  key := [113,117,101,114,121,46,112,111,108,105,99,121,46,103,101,110,101,114,97,116,105,111,110,46,118,49,0] ++ collection
  expectedExists := false
  expectedHash := none
  newValue := [77,69,76,68,80,79,76,49,1,0,32,0,0,0,0,0] ++ generation.val
  delete := false
  unconditional := true

/-- The records, the latest instant the clock has shown and the business writes
committed so far. -/
structure SystemState (W : Type) where
  catalog : Catalog
  latest : ℤ
  business : List W

def SystemState.record {W : Type} (s : SystemState W) (key : Bytes) : Option Bytes := getSystemRecord (some s.catalog) key

inductive StoreOp (W : Type) where
  | clock
  | token
  | swap (m : SystemRecordMutation)
  | scan (start stop : Bytes) (limit : ℕ)
  | write (m : SystemRecordMutation) (policies : List (Bytes × Token 16)) (changes : W)

inductive WriteOutcome where
  | unchanged
  | mismatch
  | applied
  deriving DecidableEq

/-- A swap returns the record it found instead of the expected one. -/
@[reducible] def StoreReply {W : Type} : StoreOp W → Type
  | .clock => ℤ
  | .token => Bool
  | .swap _ => Except IdempotencyError (Option Bytes)
  | .scan _ _ _ => Except IdempotencyError (List (Bytes × Bytes))
  | .write _ _ _ => Except IdempotencyError WriteOutcome

/-- Applies system mutations in order; `none` when one of them does not match. -/
def applyMutations : Catalog → List SystemRecordMutation → Except StorageError (Option Catalog)
  | catalog,[] => .ok (some catalog)
  | catalog,m::rest =>
    match applySystemRecordMutation catalog m with
    | .error e => .error e
    | .ok (.mismatch _) => .ok none
    | .ok (.applied catalog) => applyMutations catalog rest

variable {W : Type}

inductive Performs (s : SystemState W) : (op : StoreOp W) → StoreReply op → SystemState W → Prop
  | clock (t : ℤ) : Performs s .clock t { s with latest := max s.latest t }
  | token (ok : Bool) : Performs s .token ok s
  | swapFailed (m : SystemRecordMutation) (e : IdempotencyError) : Performs s (.swap m) (.error e) s
  | swapMismatch {m : SystemRecordMutation} {current : Option Bytes}
      (h : applySystemRecordMutation s.catalog m = .ok (.mismatch current)) :
      Performs s (.swap m) (.ok (some (current.getD []))) s
  | swapApplied {m : SystemRecordMutation} {catalog : Catalog}
      (h : applySystemRecordMutation s.catalog m = .ok (.applied catalog))
      (r : Except IdempotencyError (Option Bytes)) (hr : ∀ found, r ≠ .ok (some found)) :
      Performs s (.swap m) r { s with catalog := catalog }
  | scan (start stop : Bytes) (limit : ℕ) :
      Performs s (.scan start stop limit)
        (.ok (((Logical.systemTree s.catalog).entries.filter (fun e => start ≤ e.1 && e.1 < stop)).take limit)) s
  | scanFailed (start stop : Bytes) (limit : ℕ) (e : IdempotencyError) : Performs s (.scan start stop limit) (.error e) s
  | writeKept (m : SystemRecordMutation) (policies : List (Bytes × Token 16)) (changes : W)
      (r : Except IdempotencyError WriteOutcome)
      (hr : r ≠ .ok .applied) : Performs s (.write m policies changes) r s
  | writeApplied {m : SystemRecordMutation} {policies : List (Bytes × Token 16)} {changes : W}
      {collections : SortedMap Bytes Logical.CollectionMeta}
      {catalog : Catalog}
      (h : applyMutations { s.catalog with collections := collections }
        (m :: policies.map (fun p => generationMutation p.1 p.2)) =
        .ok (some catalog))
      (r : Except IdempotencyError WriteOutcome) (hr : r ≠ .ok .unchanged ∧ r ≠ .ok .mismatch) :
      Performs s (.write m policies changes) r { s with catalog := catalog, business := s.business ++ [changes] }

/-! ### The store's operations -/

inductive StoreOutcome where
  | decided (d : Decision)
  | recorded
  | wrote (r : Except IdempotencyError WriteOutcome)
  | pruned (count : ℕ) (start : Bytes)
  | pruneFailed (count : ℕ) (start : Bytes) (e : IdempotencyError)
  | failed (e : IdempotencyError)

abbrev StoreM (W : Type) := Program (StoreReply (W := W))
abbrev readClock : StoreM W ℤ := perform StoreOp.clock
abbrev randomToken : StoreM W Bool := perform StoreOp.token
abbrev swapRecord (m : SystemRecordMutation) : StoreM W (Except IdempotencyError (Option Bytes)) := perform (StoreOp.swap m)
abbrev scanRecords (start stop : Bytes) (limit : ℕ) : StoreM W (Except IdempotencyError (List (Bytes × Bytes))) :=
  perform (StoreOp.scan start stop limit)

/-- Every swap draws a transaction identifier first. -/
def compareAndSwap (m : SystemRecordMutation) (failed : IdempotencyError → StoreOutcome) (applied : StoreM W StoreOutcome)
    (mismatch : Bytes → StoreM W StoreOutcome) : StoreM W StoreOutcome := do
  if ← randomToken then
    match ← swapRecord m with
    | .error e => .done (failed e)
    | .ok none => applied
    | .ok (some current) => mismatch current
  else .done (failed .random)
def pendingRecord (c : Claim) : IdempotencyRecord where
  state := .pending
  fingerprint := c.fingerprint
  sessionID := c.sessionID
  claimID := c.claimID
  expiresAt := c.expiresAt
def replaceRecord (key expected value : Bytes) : SystemRecordMutation := ⟨key,true,sha256 expected,value,false,false⟩

/-- What `Claim` does about the record found under its key. -/
def decideExisting (c : Claim) (pending currentBytes : Bytes) (current : IdempotencyRecord) (now : ℤ)
    (again : Bytes → StoreM W StoreOutcome) :
    StoreM W StoreOutcome :=
  if current.state ≠ .pending && !decide (now < current.expiresAt) then
    compareAndSwap (replaceRecord (storageKey c) currentBytes pending) .failed (.done (.decided .execute)) again
  else if current.fingerprint ≠ c.fingerprint then .done (.decided .conflict)
  else
    match current.state with
    | .pending =>
      if current.sessionID = c.sessionID then .done (.decided .inProgress)
      else
        match encodeRecord { current with state := .unknown, expiresAt := c.expiresAt } with
        | none => .done (.failed .invalidRecord)
        | some unknown =>
          compareAndSwap (replaceRecord (storageKey c) currentBytes unknown) .failed (.done (.decided .outcomeUnknown)) again
    | .result => .done (.decided (.replayResult current.result))
    | .error => .done (.decided (.replayError current.errorKind current.errorCode current.errorData current.errorStatus))
    | .unknown => .done (.decided .outcomeUnknown)

/-- The loop of `Claim` over competing changes. -/
def claimAttempts (c : Claim) (pending : Bytes) : ℕ → Bytes → StoreM W StoreOutcome
  | 0,_ => .done (.failed .contention)
  | attempts+1,currentBytes =>
    match decodeRecord currentBytes with
    | none => .done (.failed .corruptRecord)
    | some current => do
      let now ← readClock
      decideExisting c pending currentBytes current now (claimAttempts c pending attempts)
def rpcIdempotencyClaimAttempts : ℕ := 16

/-- Reserves an unused or expired terminal request key or returns the decision of
the existing request. -/
def claim (c : Claim) : StoreM W StoreOutcome :=
  if c.sessionID.isZero || c.claimID.isZero || c.expiresAt = zeroTime then .done (.failed .invalidClaim)
  else
    match encodeRecord (pendingRecord c) with
    | none => .done (.failed .invalidRecord)
    | some pending =>
      compareAndSwap ⟨storageKey c,false,none,pending,false,false⟩ .failed (.done (.decided .execute))
        (claimAttempts c pending rpcIdempotencyClaimAttempts)
def completionRecord (x : Completion) : Option IdempotencyRecord :=
  let kind := if x.errorCode ≠ [] && x.errorKind = [] then internalKind else x.errorKind
  let record : IdempotencyRecord := { pendingRecord x.claim with state := .result, result := x.result }
  if x.result ≠ [] && kind = [] && x.errorCode = [] && x.errorData = [] && x.errorStatus = 0 then some record
  else if x.result = [] && validRecordedError kind x.errorCode x.errorData x.errorStatus then
    some { record with
      state := .error, errorKind := kind, errorCode := x.errorCode, errorData := x.errorData, errorStatus := x.errorStatus }
  else none
def transition (c : Claim) (next : IdempotencyRecord) : StoreM W StoreOutcome :=
  match encodeRecord (pendingRecord c),encodeRecord next with
  | some pending,some encoded =>
    compareAndSwap (replaceRecord (storageKey c) pending encoded) .failed (.done .recorded)
      (fun _ => .done (.failed .ownershipChanged))
  | _,_ => .done (.failed .invalidRecord)
def complete (x : Completion) : StoreM W StoreOutcome :=
  match completionRecord x with
  | none => .done (.failed .invalidCompletion)
  | some record => transition x.claim record
def markUnknown (c : Claim) : StoreM W StoreOutcome := transition c { pendingRecord c with state := .unknown }

/-- The mutation that replaces an owned pending claim with its outcome. -/
def atomicCompletion (x : Completion) : Option SystemRecordMutation := do
  let pending ← encodeRecord (pendingRecord x.claim)
  let record ← completionRecord x
  let terminal ← encodeRecord record
  return replaceRecord (storageKey x.claim) pending terminal
def systemWrite (x : Completion) (policies : List (Bytes × Token 16)) (changes : W) : StoreM W StoreOutcome :=
  match atomicCompletion x with
  | none => .done (.failed .invalidCompletion)
  | some m => .request (.write m policies changes) (fun r => .done (.wrote r))
def rpcIdempotencyKeyEnd : Bytes := rpcIdempotencyKeyPrefix.dropLast ++ [1]
def pruneRecords (limit : ℕ) (now : ℤ) (next : Bytes → ℕ → ℕ → StoreM W StoreOutcome) :
    List (Bytes × Bytes) → Bytes → ℕ → ℕ → StoreM W StoreOutcome
  | [],start,pruned,examined => next start pruned examined
  | (key,value) :: rest,_,pruned,examined =>
    match decodeRecord value with
    | none => .done (.pruneFailed pruned (key ++ [0]) .corruptRecord)
    | some record =>
      if record.state = .pending || now < record.expiresAt then pruneRecords limit now next rest (key ++ [0]) pruned (examined+1)
      else
        compareAndSwap ⟨key,true,sha256 value,[],true,false⟩ (.pruneFailed pruned (key ++ [0]))
          (if pruned+1 = limit then next (key ++ [0]) (pruned+1) (examined+1)
          else pruneRecords limit now next rest (key ++ [0]) (pruned+1) (examined+1))
          (fun _ => pruneRecords limit now next rest (key ++ [0]) pruned (examined+1))

/-- Page after page; every page that goes on has examined a record, so the budget
of records bounds the pages. -/
def prunePages (limit maxExamined : ℕ) (now : ℤ) : ℕ → Bytes → ℕ → ℕ → StoreM W StoreOutcome
  | 0,start,pruned,_ => .done (.pruned pruned start)
  | pages+1,start,pruned,examined =>
    if pruned < limit && examined < maxExamined then do
      match ← scanRecords start rpcIdempotencyKeyEnd (min 256 (maxExamined - examined)) with
      | .error e => .done (.pruneFailed pruned start e)
      | .ok records =>
        if records = [] then .done (.pruned pruned rpcIdempotencyKeyPrefix)
        else
          pruneRecords limit now (fun start pruned examined' =>
            if records.length < min 256 (maxExamined - examined) then .done (.pruned pruned rpcIdempotencyKeyPrefix)
            else prunePages limit maxExamined now pages start pruned examined') records start pruned examined
    else .done (.pruned pruned start)

/-- Removes a bounded number of expired terminal records. -/
def pruneExpired (pruneStart : Bytes) (limit : ℕ) : StoreM W StoreOutcome :=
  if limit = 0 || 256 < limit then .done (.failed .pruneLimit)
  else do
    let now ← readClock
    let start := if pruneStart = [] || pruneStart < rpcIdempotencyKeyPrefix || rpcIdempotencyKeyEnd ≤ pruneStart
      then rpcIdempotencyKeyPrefix else pruneStart
    let maxExamined := min (limit*16) 4096
    prunePages limit maxExamined now maxExamined start 0 0

inductive StoreTask (W : Type) where
  | claim (c : Claim)
  | complete (x : Completion)
  | markUnknown (c : Claim)
  | write (x : Completion) (policies : List (Bytes × Token 16)) (changes : W)
  | prune (pruneStart : Bytes) (limit : ℕ)

def StoreTask.program : StoreTask W → StoreM W StoreOutcome
  | .claim c => Server.claim c
  | .complete x => Server.complete x
  | .markUnknown c => Server.markUnknown c
  | .write x policies changes => systemWrite x policies changes
  | .prune pruneStart limit => pruneExpired pruneStart limit

end Meldbase.Server
