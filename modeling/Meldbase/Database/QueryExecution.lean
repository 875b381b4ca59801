import Meldbase.Database.PlannerSoundness

/-! # Query execution

The storage executors read a collection through insertion-order records, id
lookups and index iterators; the memory executors read maps and index trees.
Each retains the candidates that the requested page needs and may stop early
when candidates come in insertion order.
-/
namespace Meldbase.Database

inductive QueryError where
  | corrupt
  deriving DecidableEq

/-! ### Retained candidates -/

def maxInt : ℕ := 2 ^ 63 - 1
def accessPlanWindow (q : QuerySpec) : Option ℕ :=
  match q.limit with
  | none => none
  | some limit => if maxInt - limit < q.skip then none else some (q.skip+limit)

/-- Admits a candidate to the best ones that the page needs. -/
def QuerySpec.collect (q : QuerySpec) (items : List QueryCandidate) (candidate : QueryCandidate) : List QueryCandidate :=
  match accessPlanWindow q with
  | none => items ++ [candidate]
  | some window => Comparison.retain q.compareCandidates window items candidate

/-! ### Stored collections -/

structure StoredDocument where
  id : DocumentID
  position : ℕ
  document : Document

def StoredDocument.candidate (r : StoredDocument) : QueryCandidate := ⟨r.document,r.position⟩
def findRecord (records : List StoredDocument) (id : DocumentID) : Option StoredDocument :=
  records.find? (fun r => r.id = id)

structure StoredIndex where
  definition : IndexDefinition
  tree : Logical.SecondaryTree

def indexedKey (definition : IndexDefinition) (records : List StoredDocument) (id : DocumentID) : Bytes :=
  match findRecord records id with
  | none => []
  | some r =>
    match indexDocumentKey definition r.document with
    | .ok (some key) => key
    | _ => []
def recordPosition (records : List StoredDocument) (id : DocumentID) : ℕ :=
  match findRecord records id with
  | none => 0
  | some r => r.position

structure CollectionRecords where
  records : List StoredDocument
  ascending : records.Pairwise (fun a b => a.position < b.position)
  distinct : (records.map StoredDocument.id).Nodup
  identified : ∀ r ∈ records, r.document.id = some r.id

/-- A pinned collection whose indexes list its documents. -/
structure StoredCollection extends CollectionRecords where
  indexes : List StoredIndex
  placed : ∀ r ∈ records, 0 < r.position ∧ r.id.isZero = false
  names : (indexes.map (fun index => index.definition.name)).Nodup
  indexed : ∀ index ∈ indexes, ∀ r ∈ records, ∃ key, indexDocumentKey index.definition r.document = .ok key
  holds : ∀ index ∈ indexes, Logical.Holds (indexedKey index.definition records) (recordPosition records) index.tree

structure IndexEntry where
  key : Bytes
  position : ℕ
  id : DocumentID

/-- An empty bound is open; others start before every position and id. -/
def compositeBound (key : Bytes) : Option Bytes := if key = [] then none else some (key ++ List.replicate 24 0)
def decodeIndexEntry (e : Bytes × Bytes) : Except QueryError IndexEntry :=
  match Logical.secondaryKeyParts e.1 with
  | .error _ => .error .corrupt
  | .ok (key,position,id) => if e.2 = [0] then .ok ⟨key,position,id⟩ else .error .corrupt

variable (c : StoredCollection)

def openIndexIterator (name start stop : Bytes) : Except QueryError (List IndexEntry) :=
  if Logical.maxSecondaryScalarKeyBytes < start.length ∨ Logical.maxSecondaryScalarKeyBytes < stop.length ∨
      start ≠ [] ∧ stop ≠ [] ∧ stop < start then .error .corrupt
  else match c.indexes.find? (fun index => index.definition.name = name) with
    | none => .ok []
    | some index =>
      (Entries.range index.tree.entries (compositeBound start) (compositeBound stop)).mapM decodeIndexEntry

/-! ### Storage executors -/

/-- The ids examined so far and the candidates retained. -/
structure Scan where
  seen : List DocumentID
  items : List QueryCandidate

def decodeQueryStorageCandidate (r : StoredDocument) : Except QueryError QueryCandidate :=
  if r.id.isZero ∨ r.position = 0 ∨ r.document.id ≠ some r.id then .error .corrupt else .ok r.candidate
def Scan.examine (q : QuerySpec) (st : Scan) (id : DocumentID) (candidate : QueryCandidate) : Scan :=
  ⟨id::st.seen,if q.matches candidate.document then q.collect st.items candidate else st.items⟩
def admitID (q : QuerySpec) (st : Scan) (id : DocumentID) : Except QueryError Scan :=
  if id ∈ st.seen then .ok st
  else match findRecord c.records id with
    | none => .ok st
    | some r => do
      let candidate ← decodeQueryStorageCandidate r
      if candidate.document.id ≠ some id then .error .corrupt else .ok (st.examine q id candidate)
def admitEntry (q : QuerySpec) (definition : IndexDefinition) (st : Scan) (entry : IndexEntry) :
    Except QueryError Scan :=
  if entry.id.isZero ∨ entry.position = 0 then .error .corrupt
  else if entry.id ∈ st.seen then .ok st
  else match findRecord c.records entry.id with
    | none => .error .corrupt
    | some r => do
      let candidate ← decodeQueryStorageCandidate r
      if candidate.document.id ≠ some entry.id ∨ r.position ≠ entry.position ∨
          indexDocumentKey definition candidate.document ≠ .ok (some entry.key) then .error .corrupt
      else .ok (st.examine q entry.id candidate)

variable (access : QueryAccessPlan)

/-- The count of matches after which a single ordered source may stop. -/
def accessPlanStopAfter (q : QuerySpec) : Option ℕ :=
  if q.sort ≠ [] then none
  else match access.sources with
    | [source] =>
      if source.primary then if source.ids.length ≠ 1 then none else accessPlanWindow q
      else match source.spans with
        | [span] => if span.exact then accessPlanWindow q else none
        | _ => none
    | _ => none
def Scan.stopped (stopAfter : Option ℕ) (st : Scan) : Bool := stopAfter.any (fun n => n ≤ st.items.length)
def scanUntil {α : Type} (step : Scan → α → Except QueryError Scan) (stopAfter : Option ℕ) :
    List α → Scan → Except QueryError Scan
  | [],st => .ok st
  | x::xs,st => do
    let st ← step st x
    if st.stopped stopAfter then .ok st else scanUntil step stopAfter xs st
def scanSpan (q : QuerySpec) (stopAfter : Option ℕ) (definition : IndexDefinition) (st : Scan)
    (span : IndexScanSpan) : Except QueryError Scan := do
  let entries ← openIndexIterator c definition.name span.start span.stop
  scanUntil (admitEntry c q definition) stopAfter entries st
def scanSource (q : QuerySpec) (stopAfter : Option ℕ) (st : Scan) (source : QueryPlanSource) :
    Except QueryError Scan :=
  if source.primary then scanUntil (admitID c q) stopAfter source.ids st
  else scanUntil (scanSpan c q stopAfter source.definition) stopAfter source.spans st
def maxOrderedUnionIterators : ℕ := 256
def canMergeStorageAccessByPosition (q : QuerySpec) : Bool :=
  let spans := access.sources.flatMap QueryPlanSource.spans
  q.sort = [] && (accessPlanWindow q).isSome && access.sources.all (fun source => !source.primary) &&
    spans.all IndexScanSpan.exact && 1 < spans.length && spans.length ≤ maxOrderedUnionIterators

/-- An exact index iterator with its current entry first. -/
structure OrderedStorageScan where
  definition : IndexDefinition
  expectedKey : Bytes
  entries : List IndexEntry

/-- Validates the entry that an iterator advances to. -/
def checkOrderedScan (scan : OrderedStorageScan) : Except QueryError OrderedStorageScan :=
  match scan.entries with
  | [] => .ok scan
  | entry::_ =>
    if entry.id.isZero ∨ entry.position = 0 ∨ entry.key ≠ scan.expectedKey then .error .corrupt else .ok scan
def openOrderedScan (source : QueryPlanSource × IndexScanSpan) : Except QueryError OrderedStorageScan := do
  let entries ← openIndexIterator c source.1.definition.name source.2.start source.2.stop
  checkOrderedScan ⟨source.1.definition,source.2.start,entries⟩
def entryBefore (left right : IndexEntry) : Bool :=
  if left.position ≠ right.position then left.position < right.position else left.id ≤ right.id
def takeLeast : List OrderedStorageScan →
    Option (IndexEntry × OrderedStorageScan × (OrderedStorageScan → List OrderedStorageScan))
  | [] => none
  | scan::scans =>
    match scan.entries,takeLeast scans with
    | [],none => none
    | [],some (least,found,put) => some (least,found,fun s => scan :: put s)
    | entry::rest,none => some (entry,{ scan with entries := rest },fun s => s::scans)
    | entry::rest,some (least,found,put) =>
      if entryBefore entry least then some (entry,{ scan with entries := rest },fun s => s::scans)
      else some (least,found,fun s => scan :: put s)
def mergeScans (c : StoredCollection) (q : QuerySpec) (window : ℕ) : ℕ → List OrderedStorageScan → Scan → Except QueryError Scan
  | 0,_,st => .ok st
  | fuel+1,scans,st =>
    match takeLeast scans with
    | none => .ok st
    | some (entry,scan,put) => do
      let st ← admitEntry c q scan.definition st entry
      if st.stopped (some window) then .ok st
      else do
        let scan ← checkOrderedScan scan
        mergeScans c q window fuel (put scan) st
def executeStorageOrderedAccessPlan (q : QuerySpec) (window : ℕ) : Except QueryError (List Document) := do
  let scans ← (access.sources.flatMap (fun source => source.spans.map (fun span => (source,span)))).mapM (openOrderedScan c)
  let st ← mergeScans c q window (scans.map (fun scan => scan.entries.length)).sum scans ⟨[],[]⟩
  .ok (q.executeMatched st.items)
def executeStorageAccessPlan (q : QuerySpec) : Except QueryError (List Document) :=
  if q.limit = some 0 then .ok []
  else match canMergeStorageAccessByPosition access q,accessPlanWindow q with
    | true,some window => executeStorageOrderedAccessPlan c access q window
    | _,_ => do
      let stopAfter := accessPlanStopAfter access q
      let st ← scanUntil (scanSource c q stopAfter) stopAfter access.sources ⟨[],[]⟩
      .ok (q.executeMatched st.items)
def admitRecord (q : QuerySpec) (st : Scan) (r : StoredDocument) : Except QueryError Scan := do
  let candidate ← decodeQueryStorageCandidate r
  if r.id ∈ st.seen then .error .corrupt else .ok (st.examine q r.id candidate)
def scanStorageCollection (q : QuerySpec) : Except QueryError (List Document) :=
  if q.limit = some 0 then .ok []
  else do
    let stopAfter := if q.sort = [] then accessPlanWindow q else none
    let st ← scanUntil (admitRecord q) stopAfter c.records ⟨[],[]⟩
    .ok (q.executeMatched st.items)

/-- Selects a plan and executes it against a pinned snapshot. -/
def planStorageLocked (q : QuerySpec) : Except QueryError (List Document) :=
  let access := selectQueryAccessPlan q.whereExpr (c.indexes.map StoredIndex.definition) q
  if access.usable then executeStorageAccessPlan c access q else scanStorageCollection c q

/-! ### Memory executors -/

structure MemoryIndex where
  definition : IndexDefinition
  pairs : List (Bytes × DocumentID)

structure MemoryCollection extends CollectionRecords where
  indexes : List MemoryIndex
  names : (indexes.map (fun index => index.definition.name)).Nodup
  indexed : ∀ index ∈ indexes, ∀ r ∈ records, ∃ key, indexDocumentKey index.definition r.document = .ok key
  sorted : ∀ index ∈ indexes, index.pairs.Pairwise (fun a b => a.1 < b.1 ∨ a.1 = b.1 ∧ a.2.val < b.2.val)
  lists : ∀ index ∈ indexes, ∀ key id, (key,id) ∈ index.pairs ↔
    ∃ r ∈ records, r.id = id ∧ indexDocumentKey index.definition r.document = .ok (some key)

def MemoryIndex.get (index : MemoryIndex) (key : Bytes) : List DocumentID :=
  (index.pairs.filter (fun pair => pair.1 = key)).map Prod.snd

/-- The ids of the pairs with keys in the half-open interval. -/
def MemoryIndex.scan (index : MemoryIndex) (start stop : Bytes) : List DocumentID :=
  (index.pairs.filter (fun pair => (start = [] ∨ start ≤ pair.1) ∧ (stop = [] ∨ pair.1 < stop))).map Prod.snd

variable (m : MemoryCollection)

def memorySourceCandidates (source : QueryPlanSource) : Except QueryError (List DocumentID) :=
  if source.primary then .ok source.ids
  else match m.indexes.find? (fun index => index.definition.name = source.definition.name) with
    | none => .error .corrupt
    | some index =>
      if index.definition ≠ source.definition then .error .corrupt
      else .ok (source.spans.flatMap (fun span =>
        if span.exact then index.get span.start else index.scan span.start span.stop))
def memoryCandidates (m : MemoryCollection) : List QueryPlanSource → Except QueryError (List DocumentID)
  | [] => .ok []
  | source::sources => do
    let ids ← memorySourceCandidates m source
    let rest ← memoryCandidates m sources
    .ok (ids ++ rest)
def canOrderMemoryAccessByPosition (q : QuerySpec) : Bool :=
  q.sort = [] && (accessPlanWindow q).isSome &&
    access.sources.all (fun source => source.primary || source.spans.all IndexScanSpan.exact)

/-- Retains matches in the given order until the window is filled. -/
def examineUntil (q : QuerySpec) (stopAfter : Option ℕ) : List StoredDocument → List QueryCandidate → List QueryCandidate
  | [],items => items
  | r::rest,items =>
    if q.matches r.document then
      let items := q.collect items r.candidate
      if stopAfter.any (fun n => n ≤ items.length) then items else examineUntil q stopAfter rest items
    else examineUntil q stopAfter rest items
def executeMemoryOrderedCandidates (ids : List DocumentID) (q : QuerySpec) : List Document :=
  let candidates := (ids.foldl addDistinct []).filterMap (findRecord m.records)
  let ordered := Comparison.stableSort
    (fun a b : StoredDocument => if a.position ≠ b.position then a.position < b.position else a.id.val < b.id.val) candidates
  q.executeMatched (examineUntil q (accessPlanWindow q) ordered [])
def executeMemoryIndexCandidates (ids : List DocumentID) (q : QuerySpec) : List Document :=
  q.executeMatched (examineUntil q none ((ids.foldl addDistinct []).filterMap (findRecord m.records)) [])
def executeMemoryAccessPlan (access : QueryAccessPlan) (q : QuerySpec) : Except QueryError (List Document) :=
  if q.limit = some 0 then .ok []
  else do
    let ids ← memoryCandidates m access.sources
    if canOrderMemoryAccessByPosition access q then .ok (executeMemoryOrderedCandidates m ids q)
    else .ok (executeMemoryIndexCandidates m ids q)
def scanMemoryCollection (q : QuerySpec) : List Document :=
  if q.limit = some 0 then []
  else q.executeMatched (examineUntil q (if q.sort = [] then accessPlanWindow q else none) m.records [])
def planWithBudget (q : QuerySpec) : Except QueryError (List Document) :=
  let access := selectQueryAccessPlan q.whereExpr (m.indexes.map MemoryIndex.definition) q
  if access.usable then executeMemoryAccessPlan m access q else .ok (scanMemoryCollection m q)

end Meldbase.Database
