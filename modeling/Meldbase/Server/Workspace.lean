import Meldbase.Database.QuerySoundness
import Meldbase.Server.DeniedPaths
import Meldbase.Server.PolicyIntersection

/-! # Workspaces

The workspace authorizer gives every request a policy: inserts set the workspace
field (and the owner field where documents have owners), updates may not touch
them, and every row must have the caller's values in them.  The handler applies
these policies to the requests of any actors.  Over every run each document keeps
the values of the actor that inserted it, and no request reads, changes or counts
a document of someone else.
-/
namespace Meldbase.Server
open Database

/-! ### The authorizer -/

structure Actor where
  (id workspaceID : Bytes)
  deriving DecidableEq

inductive CollectionAccessMode where
  | collaborative
  | owner
  | rpcOnly
  | readOnly
  deriving DecidableEq

structure CollectionAccessFields where
  (queryPaths aggregateFields resultFields inputFields updatePaths : Option (List Bytes))

structure CollectionAccess where
  mode : CollectionAccessMode
  ownerField : Bytes
  fields : Option CollectionAccessFields
  policyVersion : Bytes

def letter (b : Byte) : Bool := 0x41 ≤ b.val && b.val ≤ 0x5a || 0x61 ≤ b.val && b.val ≤ 0x7a
def identifierByte (b : Byte) : Bool := letter b || 0x30 ≤ b.val && b.val ≤ 0x39 || b.val = 0x5f

/-- Simple names for workspace fields: a letter, then at most 127 letters, digits and underscores. -/
def workspaceIdentifier : Bytes → Bool
  | [] => false
  | first::rest => letter first && rest.length ≤ 127 && rest.all identifierByte

/-- The checks of the constructor are fields: an authorizer that fails them cannot be built. -/
structure WorkspaceAuthorizer where
  collections : List (Bytes × CollectionAccess)
  workspaceField : Bytes
  (maxResults maxAffected : ℕ)
  simple : workspaceIdentifier workspaceField = true
  owners : ∀ entry ∈ collections, entry.2.mode = .owner →
    workspaceIdentifier entry.2.ownerField = true ∧ entry.2.ownerField ≠ workspaceField

def collectionAccessFieldSet (fields : Option CollectionAccessFields)
    (selectFields : CollectionAccessFields → Option (List Bytes)) :
    Bool × Option (List Bytes) :=
  match fields.bind selectFields with
  | none => (true,none)
  | some values => (false,some values)
def collectionAccessAggregateFieldSet (fields : Option CollectionAccessFields) : Bool × Option (List Bytes) :=
  (false,some ((fields.bind CollectionAccessFields.aggregateFields).getD []))

namespace WorkspaceAuthorizer
variable (a : WorkspaceAuthorizer) (wireBytes : ClientQuery → ℕ)
variable (actor : Actor) (collection : Bytes)

def allow : Except PolicyError CollectionAccess :=
  if actor.id = [] ∨ actor.workspaceID = [] then .error .forbidden
  else match KeyedList.find collection a.collections with
    | none => .error .forbidden
    | some rule => if rule.mode = .rpcOnly then .error .forbidden else .ok rule
def workspaceFilter : Expr := .compare .eq a.workspaceField (.string actor.workspaceID)

variable (rule : CollectionAccess)

def ownerFilter : Expr := .compare .eq rule.ownerField (.string actor.id)

/-- The workspace and optional owner filter; the compiler takes the fields in sorted order. -/
def constraintExpr : Expr :=
  if rule.mode = .owner then
    .logical .and (if a.workspaceField < rule.ownerField then [a.workspaceFilter actor,ownerFilter actor rule]
      else [ownerFilter actor rule,a.workspaceFilter actor])
  else a.workspaceFilter actor
def constraint : Except PolicyError ClientQuery :=
  let query : ClientQuery := ⟨⟨a.constraintExpr actor rule,[],0,none⟩,false⟩
  if query.validate wireBytes then .ok query else .error .forbidden
def authorizeQuery : Except PolicyError QueryPolicy := do
  let rule ← a.allow actor collection
  let constraint ← a.constraint wireBytes actor rule
  let queryPaths := collectionAccessFieldSet rule.fields CollectionAccessFields.queryPaths
  let aggregateFields := collectionAccessAggregateFieldSet rule.fields
  let resultFields := collectionAccessFieldSet rule.fields CollectionAccessFields.resultFields
  .ok
    { policyVersion := rule.policyVersion
      lease := none
      constraint := some constraint
      maxResults := a.maxResults
      allowAllQueryPaths := queryPaths.1
      allowedQueryPaths := queryPaths.2
      allowAllFilterPaths := false
      allowedFilterPaths := none
      allowAllFilterOperators := false
      allowedFilterOperators := none
      allowAllSortPaths := false
      allowedSortPaths := none
      allowAllAggregateFields := aggregateFields.1
      allowedAggregateFields := aggregateFields.2
      allowAllResultFields := resultFields.1
      allowedResultFields := resultFields.2
      additionalLease := none
      compositeLeases := false }
def setFields : Document :=
  (a.workspaceField,.string actor.workspaceID) :: if rule.mode = .owner then [(rule.ownerField,.string actor.id)] else []
def authorizeInsert : Except PolicyError InsertPolicy := do
  let rule ← a.allow actor collection
  if rule.mode = .readOnly then .error .forbidden
  else
    let set := a.setFields actor rule
    let inputFields := collectionAccessFieldSet rule.fields CollectionAccessFields.inputFields
    let resultFields := collectionAccessFieldSet rule.fields CollectionAccessFields.resultFields
    .ok
      { allowAllInputFields := inputFields.1
        allowedInputFields := inputFields.2.map (fun fields => fields ++ set.map Prod.fst)
        setFields := set
        allowAllResultFields := resultFields.1
        allowedResultFields := resultFields.2 }
def deniedFields : List Bytes := a.workspaceField :: if rule.mode = .owner then [rule.ownerField] else []
def authorizeUpdate : Except PolicyError UpdatePolicy := do
  let rule ← a.allow actor collection
  if rule.mode = .readOnly then .error .forbidden
  else do
    let base ← a.authorizeQuery wireBytes actor collection
    let updatePaths := collectionAccessFieldSet rule.fields CollectionAccessFields.updatePaths
    .ok
      { base with
        allowAllUpdatePaths := updatePaths.1
        allowedUpdatePaths := updatePaths.2
        deniedUpdatePaths := some (a.deniedFields rule)
        maxAffected := a.maxAffected }
def authorizeDelete : Except PolicyError DeletePolicy := do
  let rule ← a.allow actor collection
  if rule.mode = .readOnly then .error .forbidden
  else do
    let base ← a.authorizeQuery wireBytes actor collection
    .ok { base with maxAffected := a.maxAffected }

end WorkspaceAuthorizer

/-! ### Requests -/

inductive HandlerError where
  | forbidden
  | forbiddenField
  | invalidPolicy
  | invalidDocument
  deriving DecidableEq

def insertedDocument (policy : InsertPolicy) (input : Document) : Except HandlerError Document :=
  if !policy.allowAllInputFields && !input.all (fun e => e.1 = idField || has policy.allowedInputFields e.1) then
    .error .forbiddenField
  else if (lookupField policy.setFields idField).isSome then .error .invalidPolicy
  else .ok (policy.setFields.foldl (fun d e => putField d e.1 e.2) input)
def assignID (d : Document) (fresh : DocumentID) : Except HandlerError (DocumentID × Document) :=
  if !d.validate then .error .invalidDocument
  else match lookupField d idField with
    | none => if fresh.isZero then .error .invalidDocument else .ok (fresh,putField d idField (.id fresh))
    | some (.id id) => if id.isZero then .error .invalidDocument else .ok (id,d)
    | some _ => .error .invalidDocument

/-- A stored document, with the actor that inserted it. -/
structure Held where
  id : DocumentID
  document : Document
  insertedBy : Actor

/-- The documents by collection, and the inserts whose response has not been read back. -/
structure ServerState where
  collections : Bytes → List Held
  inserting : List (Actor × Bytes × DocumentID)

def ServerState.empty : ServerState := ⟨fun _ => [],[]⟩
def ServerState.put (s : ServerState) (collection : Bytes) (held : List Held) : ServerState :=
  { s with collections := Function.update s.collections collection held }
def Holds (c : CollectionRecords) (held : List Held) : Prop :=
  c.records.map (fun r => (r.id,r.document)) = held.map (fun h => (h.id,h.document))

/-- What the engines return for a query, with whatever indexes the collection has. -/
inductive Answers (held : List Held) (q : QuerySpec) (docs : List Document) : Prop where
  | storage (c : StoredCollection) (hc : Holds c.toCollectionRecords held) (h : planStorageLocked c q = .ok docs)
  | memory (m : MemoryCollection) (hm : Holds m.toCollectionRecords held) (h : planWithBudget m q = .ok docs)

/-- The targets of a mutation: storage queries one more than may be affected,
memory scans in insertion order. -/
inductive Selects (held : List Held) (q : ClientQuery) (one : Bool) (maxAffected : ℕ) (docs : List Document) : Prop where
  | storage (c : StoredCollection) (hc : Holds c.toCollectionRecords held)
      (h : planStorageLocked c (q.capped (if one then 1 else maxAffected+1)).toQuerySpec = .ok docs)
      (hlen : docs.length ≤ maxAffected)
  | memory (h : docs =
      (if one then ((held.map Held.document).filter q.matches).take 1 else (held.map Held.document).filter q.matches))
      (hlen : docs.length ≤ maxAffected)

def applyChanges (changes : List (DocumentID × Document)) (h : Held) : Held :=
  match KeyedList.find h.id changes with
  | none => h
  | some after => { h with document := after }

/-- What a request did. -/
inductive Event where
  | inserted (collection : Bytes) (id : DocumentID)
  | readBack (collection : Bytes) (response : Document)
  | updated (collection : Bytes) (matched modified : List DocumentID)
  | deleted (collection : Bytes) (ids : List DocumentID)
  | returned (collection : Bytes) (response : List Document)

inductive QueryAuthorized (a : WorkspaceAuthorizer) (wireBytes : ClientQuery → ℕ) (digest : Bytes → Bytes) (actor : Actor)
    (collection : Bytes) (q : ClientQuery) (policy : QueryPolicy) : Prop where
  | base (h : a.authorizeQuery wireBytes actor collection = .ok policy)
  | combined (base additional : QueryPolicy) (h : a.authorizeQuery wireBytes actor collection = .ok base)
      (constrained : ClientQuery)
      (hq : applyPolicy wireBytes q base = .ok constrained)
      (hc : intersectQueryPolicies wireBytes digest base additional = .ok policy)

/-- A successful request.  A mutation in a commit group has selected its targets
on earlier contents, and none of them has changed since. -/
inductive Step (a : WorkspaceAuthorizer) (wireBytes : ClientQuery → ℕ) (digest : Bytes → Bytes) (s : ServerState)
    (actor : Actor) :
    Event → ServerState → Prop where
  | insert (collection : Bytes) (input document stored : Document) (fresh id : DocumentID) (policy : InsertPolicy)
      (hp : a.authorizeInsert actor collection = .ok policy) (hd : insertedDocument policy input = .ok document)
      (hid : assignID document fresh = .ok (id,stored)) (hnew : id ∉ (s.collections collection).map Held.id) :
      Step a wireBytes digest s actor (.inserted collection id)
        ⟨Function.update s.collections collection (s.collections collection ++ [⟨id,stored,actor⟩]),
          s.inserting ++ [(actor,collection,id)]⟩
  | readBack (collection : Bytes) (id : DocumentID) (policy : InsertPolicy) (h : Held) (order : List Bytes)
      (hi : (actor,collection,id) ∈ s.inserting) (hp : a.authorizeInsert actor collection = .ok policy)
      (hh : h ∈ s.collections collection) (hid : h.id = id) (ho : order.Perm (policy.allowedResultFields.getD [])) :
      Step a wireBytes digest s actor (.readBack collection (projectFields h.document policy.allowAllResultFields (some order)))
        { s with inserting := s.inserting.erase (actor,collection,id) }
  | update (collection : Bytes) (q accepted : ClientQuery) (m : MutationSpec) (policy : UpdatePolicy) (one : Bool)
      (seen : List Held)
      (docs : List Document) (changes : List (DocumentID × Document)) (hmod : q.hasModifiers = false)
      (hm : validateMutationPaths [] m.paths = true)
      (hp : a.authorizeUpdate wireBytes actor collection = .ok policy)
      (ha : applyUpdatePolicy wireBytes q m policy = .ok accepted)
      (hs : Selects seen accepted one (if one then 1 else policy.maxAffected) docs)
      (hcurrent : ∀ d ∈ docs, ∃ h ∈ s.collections collection, h.document = d) (hu : prepareDocumentUpdates m docs = .ok changes) :
      Step a wireBytes digest s actor (.updated collection (docs.filterMap Document.id) (changes.map Prod.fst))
        (s.put collection ((s.collections collection).map (applyChanges changes)))
  | delete (collection : Bytes) (q accepted : ClientQuery) (policy : DeletePolicy) (one : Bool) (seen : List Held)
      (docs : List Document)
      (hmod : q.hasModifiers = false) (hp : a.authorizeDelete wireBytes actor collection = .ok policy)
      (ha : applyDeletePolicy wireBytes q policy = .ok accepted)
      (hs : Selects seen accepted one (if one then 1 else policy.maxAffected) docs)
      (hcurrent : ∀ d ∈ docs, ∃ h ∈ s.collections collection, h.document = d) :
      Step a wireBytes digest s actor (.deleted collection (docs.filterMap Document.id))
        (s.put collection ((s.collections collection).filter (fun h => h.id ∉ docs.filterMap Document.id)))
  | query (collection : Bytes) (q accepted : ClientQuery) (policy : QueryPolicy) (docs response : List Document)
      (hp : QueryAuthorized a wireBytes digest actor collection q policy) (ha : applyPolicy wireBytes q policy = .ok accepted)
      (hs : Answers (s.collections collection) accepted.toQuerySpec docs)
      (hr : List.Forall₂ (fun d p => ∃ order : List Bytes, order.Perm (policy.allowedResultFields.getD []) ∧
        p = projectFields d policy.allowAllResultFields (some order)) docs response) :
      Step a wireBytes digest s actor (.returned collection response) s

inductive Reachable (a : WorkspaceAuthorizer) (wireBytes : ClientQuery → ℕ) (digest : Bytes → Bytes) : ServerState → Prop where
  | empty : Reachable a wireBytes digest ServerState.empty
  | step {s s' : ServerState} {actor : Actor} {event : Event} (h : Reachable a wireBytes digest s)
      (hs : Step a wireBytes digest s actor event s') : Reachable a wireBytes digest s'

end Meldbase.Server
