import Meldbase.Database.Changes
import Meldbase.Database.ExecutorEquivalence
import Meldbase.Database.QueryDelta
import Meldbase.Library.Treap

/-! # Live query views

A view state holds the matching documents of one query at one token, in a tree
by id and a tree in result order, with the page they give.  States are built from
the whole collection or advanced by the changes of a batch.  Insertion positions
come from an order table that all views of a collection share.
-/
namespace Meldbase.Database
open KeyedList Comparison
open Logical (maxUint64)

inductive ReactiveError where
  | corrupt
  | resourceLimit
  | invalidDocument
  | invalidDelta
  | closed
  | slowConsumer
  | canceled
  deriving DecidableEq

/-! ### Members and their trees -/

/-- A matching document with its insertion position and charged size. -/
structure ReactiveMember where
  document : Document
  (position bytes : ℕ)

structure ReactiveTreeEntry where
  id : DocumentID
  member : ReactiveMember

def higherReactivePriority (priority : DocumentID → ℕ) (a b : ReactiveTreeEntry) : Bool :=
  if priority a.id ≠ priority b.id then priority b.id < priority a.id else a.id < b.id
def compareDocumentIDs (a b : DocumentID) : Ordering := threeWay a b
def SortField.compareReactive (field : SortField) (left right : Document) : Ordering :=
  match lookupInternal left field.path,lookupInternal right field.path with
  | none,none => .eq
  | none,some _ => if field.direction = -1 then .gt else .lt
  | some _,none => if field.direction = -1 then .lt else .gt
  | some lv,some rv =>
    if field.direction = -1 then (compareSortValues lv rv).swap else compareSortValues lv rv
def compareReactiveFields : List SortField → Document → Document → Ordering
  | [],_,_ => .eq
  | field::fields,left,right => (field.compareReactive left right).then (compareReactiveFields fields left right)

variable (q : QuerySpec)

/-- Sort fields, insertion position, then document id. -/
def compareReactiveOrder (a b : ReactiveTreeEntry) : Ordering :=
  (compareReactiveFields q.sort a.member.document b.member.document).then
    ((threeWay a.member.position b.member.position).then (compareDocumentIDs a.id b.id))

section
variable (priority : DocumentID → ℕ)
variable (root : Treap ReactiveTreeEntry)

def reactiveIDGet (id : DocumentID) : Option ReactiveMember :=
  (root.find fun e => compareDocumentIDs id e.id).map ReactiveTreeEntry.member
def reactiveIDPut (e : ReactiveTreeEntry) : Treap ReactiveTreeEntry :=
  root.put (higherReactivePriority priority) (fun x => compareDocumentIDs e.id x.id) e
def reactiveIDDelete (id : DocumentID) : Treap ReactiveTreeEntry :=
  root.delete (higherReactivePriority priority) (fun x => compareDocumentIDs id x.id)

variable (q : QuerySpec)

def reactiveOrderPut (root : Treap ReactiveTreeEntry) (e : ReactiveTreeEntry) : Treap ReactiveTreeEntry :=
  root.put (higherReactivePriority priority) (compareReactiveOrder q e) e
def reactiveOrderDelete (root : Treap ReactiveTreeEntry) (e : ReactiveTreeEntry) : Treap ReactiveTreeEntry :=
  root.delete (higherReactivePriority priority) (compareReactiveOrder q e)
def buildReactiveTrees (entries : List ReactiveTreeEntry) : Treap ReactiveTreeEntry × Treap ReactiveTreeEntry :=
  let byID := stableSort (lessBy fun a b => compareDocumentIDs a.id b.id) entries
  let ordered := stableSort (lessBy (compareReactiveOrder q)) entries
  (Treap.bulk (higherReactivePriority priority) byID,Treap.bulk (higherReactivePriority priority) ordered)

end

def materializeReactiveOrder (root : Treap ReactiveTreeEntry) (skip : ℕ) (limit : Option ℕ) : List Document :=
  let total := root.size
  let start := if total < skip then total else skip
  let stop :=
    match limit with
    | none => total
    | some limit => if limit < total - start then start+limit else total
  (Treap.collect start stop 0 root).map fun e => e.member.document

/-! ### View states -/

structure ReactiveViewState where
  (token memberCount memberBytes : ℕ)
  (byID ordered : Treap ReactiveTreeEntry)
  snapshot : QuerySnapshot

structure ResourceLimits where
  (maxReactiveViewDocuments maxReactiveViewBytes maxQueryPredicateSteps : ℕ)
  /-- The predicate steps that a match charges. -/
  matchSteps : QuerySpec → Document → ℕ

variable (limits : ResourceLimits)

def admitReactiveViewMember (count bytes documentBytes : ℕ) : Except ReactiveError (ℕ × ℕ) :=
  if limits.maxReactiveViewDocuments ≤ count then .error .resourceLimit
  else if limits.maxReactiveViewBytes < bytes ∨ limits.maxReactiveViewBytes - bytes < documentBytes then
    .error .resourceLimit
  else .ok (count+1,bytes+documentBytes)
def matchWithBudget (d : Document) (steps : ℕ) : Except ReactiveError (Bool × ℕ) :=
  if limits.maxQueryPredicateSteps < steps+limits.matchSteps q d then .error .resourceLimit
  else .ok (q.matches d,steps+limits.matchSteps q d)
def documentSize (d : Document) : Except ReactiveError ℕ :=
  match canonicalDocumentSize d with
  | none => .error .invalidDocument
  | some size => .ok size

/-- The members of one query found so far by a scan, and the predicate steps it took. -/
structure ViewBuild where
  query : QuerySpec
  entries : List ReactiveTreeEntry
  (count bytes steps : ℕ)

def ViewBuild.start : ViewBuild := ⟨q,[],0,0,0⟩
def ViewBuild.examine (id : DocumentID) (position : ℕ) (d : Document) (b : ViewBuild) :
    Except ReactiveError ViewBuild := do
  let matched ← matchWithBudget b.query limits d b.steps
  if matched.1 then
    let size ← documentSize d
    let totals ← admitReactiveViewMember limits b.count b.bytes size
    .ok { b with entries := b.entries ++ [⟨id,⟨d,position,size⟩⟩], count := totals.1, bytes := totals.2, steps := matched.2 }
  else .ok { b with steps := matched.2 }
def ViewBuild.state (priority : DocumentID → ℕ) (token : ℕ) (b : ViewBuild) : ReactiveViewState :=
  let trees := buildReactiveTrees priority b.query b.entries
  { token, memberCount := b.count, memberBytes := b.bytes, byID := trees.1, ordered := trees.2,
    snapshot := ⟨token,materializeReactiveOrder trees.2 b.query.skip b.query.limit⟩ }

/-! ### Order tables -/

structure ReactiveCollectionOrder where
  token : ℕ := 0
  next : ℕ := 0
  positions : List (DocumentID × ℕ) := []

variable (order : ReactiveCollectionOrder)

def ReactiveCollectionOrder.position (id : DocumentID) : Option ℕ := find id order.positions
def rebuildPositions (old : List (DocumentID × ℕ)) : List StoredDocument → ℕ → List (DocumentID × ℕ) →
    Except ReactiveError (ℕ × List (DocumentID × ℕ))
  | [],next,positions => .ok (next,positions)
  | r::rest,next,positions =>
    match find r.id old with
    | some position => rebuildPositions old rest next (positions ++ [(r.id,position)])
    | none =>
      if next = maxUint64 then .error .corrupt
      else rebuildPositions old rest (next+1) (positions ++ [(r.id,next+1)])
def ReactiveCollectionOrder.rebuild (records : List StoredDocument) (token : ℕ) :
    Except ReactiveError ReactiveCollectionOrder := do
  let rebuilt ← rebuildPositions order.positions records order.next []
  .ok ⟨token,rebuilt.1,rebuilt.2⟩
def ReactiveCollectionOrder.applyChange (c : Change) : Option ReactiveCollectionOrder :=
  match c.operation with
  | .insert =>
    if (order.position c.documentID).isSome then none
    else if order.next = maxUint64 then none
    else some { order with next := order.next+1, positions := order.positions ++ [(c.documentID,order.next+1)] }
  | .update => if (order.position c.documentID).isSome then some order else none
  | .delete =>
    if (order.position c.documentID).isSome then
      some { order with positions := remove c.documentID order.positions }
    else none
  | .createIndex => some order
  | .replaceIndex => some order
  | .createCollection => none
def ReactiveCollectionOrder.applyChanges (order : ReactiveCollectionOrder) : List Change → Bool × ReactiveCollectionOrder
  | [] => (true,order)
  | c::rest =>
    match order.applyChange c with
    | none => (false,order)
    | some next => next.applyChanges rest

/-- Follows a newer batch; an older one is covered already. -/
def ReactiveCollectionOrder.apply (token : ℕ) (changes : List Change) : Bool × ReactiveCollectionOrder :=
  if token ≤ order.token then (true,order)
  else
    let applied := order.applyChanges changes
    if applied.1 then (true,{ applied.2 with token := token }) else applied

/-! ### Building states -/

structure StorageScan where
  positions : List (DocumentID × ℕ)
  next : ℕ
  builds : List ViewBuild

def StorageScan.examine (limits : ResourceLimits) (scan : StorageScan) (r : StoredDocument) : Except ReactiveError StorageScan :=
  if r.id.isZero ∨ r.position = 0 ∨ r.document.id ≠ some r.id then .error .corrupt
  else if r.id ∈ keys scan.positions ∨ r.position ∈ scan.positions.map Prod.snd then .error .corrupt
  else do
    let builds ← scan.builds.mapM (ViewBuild.examine limits r.id r.position r.document)
    .ok ⟨scan.positions ++ [(r.id,r.position)],if scan.next < r.position then r.position else scan.next,builds⟩
def buildStorageReactiveViewStates (priority : DocumentID → ℕ) (limits : ResourceLimits) (sequence : ℕ)
    (records : List StoredDocument) (expectedToken : ℕ) (queries : List QuerySpec) :
    Except ReactiveError (List ReactiveViewState × ReactiveCollectionOrder) :=
  if sequence ≠ expectedToken ∨ queries = [] then .error .corrupt
  else do
    let scan ← records.foldlM (StorageScan.examine limits) ⟨[],0,queries.map ViewBuild.start⟩
    .ok (scan.builds.map (ViewBuild.state priority expectedToken),⟨expectedToken,scan.next,scan.positions⟩)
def examineMemory (b : ViewBuild) (r : StoredDocument) : Except ReactiveError ViewBuild :=
  match order.position r.id with
  | none => .error .corrupt
  | some position => b.examine limits r.id position r.document
def buildReactiveViewState (priority : DocumentID → ℕ) (limits : ResourceLimits) (records : List StoredDocument)
    (order : ReactiveCollectionOrder) (token : ℕ) (q : QuerySpec) : Except ReactiveError ReactiveViewState := do
  let build ← records.foldlM (examineMemory limits order) (ViewBuild.start q)
  .ok (build.state priority token)

/-! ### Incremental updates -/

/-- The trees and totals of a state under change. -/
structure ViewEdit where
  (byID ordered : Treap ReactiveTreeEntry)
  (count bytes steps : ℕ)
  mutated : Bool

def reactiveMemberCanonicalBytes (member : ReactiveMember) : Except ReactiveError ℕ :=
  if member.bytes ≠ 0 then .ok member.bytes else documentSize member.document
def changeAfterCanonicalBytes (c : Change) : Except ReactiveError ℕ :=
  match c.after,c.afterCanonicalBytes with
  | none,_ => .error .corrupt
  | some _,some bytes => .ok bytes
  | some d,none => documentSize d
def matchImage (image : Option Document) (steps : ℕ) : Except ReactiveError (Bool × ℕ) :=
  match image with
  | none => .ok (false,steps)
  | some d => matchWithBudget q limits d steps

section
variable (priority : DocumentID → ℕ) (limits : ResourceLimits) (q : QuerySpec)
variable (e : ViewEdit)

/-- Takes a member out; totals that do not cover it ask for a rebuild. -/
def ViewEdit.remove (id : DocumentID) (member : ReactiveMember) : Except ReactiveError (Option ViewEdit) := do
  let size ← reactiveMemberCanonicalBytes member
  if e.count = 0 ∨ e.bytes < size then .ok none
  else .ok (some { e with
                   byID := reactiveIDDelete priority e.byID id,
                   ordered := reactiveOrderDelete priority q e.ordered ⟨id,member⟩,
                   count := e.count - 1, bytes := e.bytes - size, mutated := true })
def ViewEdit.insert (c : Change) (d : Document) (position : ℕ) : Except ReactiveError (Option ViewEdit) := do
  let size ← changeAfterCanonicalBytes c
  let totals ← admitReactiveViewMember limits e.count e.bytes size
  let entry : ReactiveTreeEntry := ⟨c.documentID,⟨d,position,size⟩⟩
  .ok (some { e with
              byID := reactiveIDPut priority e.byID entry, ordered := reactiveOrderPut priority q e.ordered entry,
              count := totals.1, bytes := totals.2, mutated := true })
def ViewEdit.replace (c : Change) (d : Document) (member : ReactiveMember) :
    Except ReactiveError (Option ViewEdit) := do
  match ← e.remove priority q c.documentID member with
  | none => .ok none
  | some removed => removed.insert priority limits q c d member.position

/-- One change; `none` asks for a rebuild. -/
def ViewEdit.change (order : ReactiveCollectionOrder) (e : ViewEdit) (c : Change) : Except ReactiveError (Option ViewEdit) :=
  if c.operation = .createIndex ∨ c.operation = .replaceIndex then .ok (some e)
  else do
    let member := reactiveIDGet e.byID c.documentID
    let before ← matchImage q limits c.before e.steps
    let after ← matchImage q limits c.after before.2
    let e := { e with steps := after.2 }
    if before.1 ≠ member.isSome then .ok none
    else match member,c.after.filter q.matches with
      | some member,none => e.remove priority q c.documentID member
      | none,none => .ok (some e)
      | some member,some d => e.replace priority limits q c d member
      | none,some d =>
        match order.position c.documentID with
        | none => .ok none
        | some position => e.insert priority limits q c d position
def ViewEdit.changes (order : ReactiveCollectionOrder) (e : ViewEdit) : List Change → Except ReactiveError (Option ViewEdit)
  | [] => .ok (some e)
  | c::rest => do
    match ← e.change priority limits q order c with
    | none => .ok none
    | some next => next.changes order rest
def ViewEdit.finish (current : ReactiveViewState) (token : ℕ) (e : ViewEdit) : ReactiveViewState :=
  { token, memberCount := e.count, memberBytes := e.bytes, byID := e.byID, ordered := e.ordered,
    snapshot := ⟨token,if e.mutated then materializeReactiveOrder e.ordered q.skip q.limit
      else current.snapshot.documents⟩ }

/-- Advances a state by a batch that the order table covers; `none` asks for a rebuild. -/
def transitionReactiveViewState (order : ReactiveCollectionOrder) (token : ℕ) (changes : List Change)
    (current : ReactiveViewState) : Except ReactiveError (Option ReactiveViewState) :=
  if token ≤ current.token then .ok (some current)
  else do
    let edit : ViewEdit := ⟨current.byID,current.ordered,current.memberCount,current.memberBytes,0,false⟩
    let edited ← edit.changes priority limits q order changes
    .ok (edited.map (ViewEdit.finish q current token))

end
end Meldbase.Database
