import Meldbase.Logical.Indexes

/-! # Document transactions

One document transaction stages its collections, applies the index changes and
appends one commit; a group does so once per member in a single update.  Index
and collection creation publish the same kinds of roots.
-/
namespace Meldbase.Logical
variable [Sha256]

def maxDocumentBytes : ℕ := 64*1024*1024

structure DocumentMutation where
  collection : Bytes
  documentID : Identifier
  operation : CommitOperation
  document : Bytes
  changedPaths : List Bytes
  indexes : List IndexMutation

structure DocumentPrecondition where
  collection : Bytes
  documentID : Identifier
  expectedExists : Bool
  expectedHash : Digest

structure CollectionPrecondition where
  collection : Bytes
  expectedExists : Bool
  (expectedID expectedUpdatedSequence : ℕ)

structure DocumentTransaction where
  transactionID : Identifier
  committedAt : ℕ
  preconditions : List DocumentPrecondition
  collectionPreconditions : List CollectionPrecondition
  mutations : List DocumentMutation

/-! ### Preconditions -/

variable (catalog : Catalog)

def checkCollectionPrecondition (seen : List Bytes) (p : CollectionPrecondition) :
    Except StorageError (List Bytes) :=
  if !validCollectionName p.collection ||
      (p.expectedExists && (p.expectedID = 0 || p.expectedUpdatedSequence = 0)) ||
      (!p.expectedExists && (p.expectedID ≠ 0 || p.expectedUpdatedSequence ≠ 0)) then .error .corrupt
  else if p.collection ∈ seen then .error .corrupt
  else match catalog.collections.find p.collection with
    | none => if p.expectedExists then .error .documentConflict else .ok (p.collection::seen)
    | some header =>
      if !p.expectedExists then .error .documentConflict
      else if header.id ≠ p.expectedID || header.updatedSequence ≠ p.expectedUpdatedSequence then
        .error .documentConflict
      else .ok (p.collection::seen)
def validateCollectionPreconditions (ps : List CollectionPrecondition) : Except StorageError Unit := do
  let _ ← ps.foldlM (checkCollectionPrecondition catalog) []
  .ok ()
def checkDocumentPrecondition (seen : List (Bytes × Identifier)) (p : DocumentPrecondition) :
    Except StorageError (List (Bytes × Identifier)) :=
  if !validCollectionName p.collection || p.documentID.isZero || (!p.expectedExists && p.expectedHash.isSome) then
    .error .corrupt
  else if (p.collection,p.documentID) ∈ seen then .error .corrupt
  else
    let stored := (catalog.collections.find p.collection).bind (fun header => (openTree header.primaryRoot).find p.documentID)
    match stored with
    | none => if p.expectedExists then .error .documentConflict else .ok ((p.collection,p.documentID) :: seen)
    | some record =>
      if !p.expectedExists || sha256 record.document ≠ p.expectedHash then .error .documentConflict
      else .ok ((p.collection,p.documentID) :: seen)
def validateDocumentPreconditions (ps : List DocumentPrecondition) : Except StorageError Unit := do
  let _ ← ps.foldlM (checkDocumentPrecondition catalog) []
  .ok ()

/-! ### Staging one mutation -/

/-- The loop state of `applyDocumentSystemTransactionInWriteTxn`. -/
structure DocumentWork where
  states : WriteStates
  seenDocuments : List (Bytes × Identifier)
  pending : List (Bytes × CommitChange)
  pendingIndexes : List PendingIndexMutation
  newCollections : ℕ
  documentDelta : ℤ

def DocumentWork.start : DocumentWork := ⟨∅,[],[],[],0,0⟩
def loadCollectionIndexes (required : RequiredFeatures) (indexCatalog : SortedMap Bytes IndexMeta) :
    Except StorageError (SortedMap Bytes IndexWriteState) :=
  if indexCatalog.entries.all (fun e => e.2.keyCodecVersion = indexKeyCodecV3 → required.compoundIndexes) then
    .ok (indexCatalog.map (fun _ m => ⟨m,openTree m.root,false⟩))
  else .error .corrupt
def openWriteState (required : RequiredFeatures) (header : CollectionMeta) (created : Bool) :
    Except StorageError CollectionWriteState :=
  let tree := openTree header.primaryRoot
  let order := openTree header.orderRoot
  if tree.size ≠ header.documentCount || order.size ≠ header.documentCount then .error .corrupt
  else do
    let indexes ← loadCollectionIndexes required (openTree header.indexCatalogRoot)
    .ok ⟨header,header.primaryRoot,tree,order,openTree header.indexCatalogRoot,indexes,created⟩
def newCollectionMeta (id sequence : ℕ) : CollectionMeta := ⟨id,none,none,none,0,sequence,0,0⟩

variable (tx : WriteTxn) (base : DatabaseRoot)

def stateFor (catalog : Catalog) (work : DocumentWork) (name : Bytes) :
    Except StorageError (CollectionWriteState × ℕ) :=
  match work.states.find name with
  | some state => .ok (state,work.newCollections)
  | none =>
    match catalog.collections.find name with
    | some header => do
      let state ← openWriteState tx.requiredFeatures header false
      .ok (state,work.newCollections)
    | none =>
      if maxUint32 < base.collectionCount + (work.newCollections+1) then .error .corrupt
      else do
        let state ← openWriteState tx.requiredFeatures
          (newCollectionMeta (base.collectionCount + (work.newCollections+1)) tx.sequence) true
        .ok (state,work.newCollections+1)

variable (state : CollectionWriteState) (m : DocumentMutation)

def mutationPosition : Except StorageError ℕ :=
  match state.tree.find m.documentID with
  | some record =>
    if m.operation = .insert then .error .documentExists
    else if state.order.find record.position ≠ some m.documentID then .error .corrupt
    else .ok record.position
  | none =>
    if m.operation ≠ .insert then .error .documentConflict
    else if state.header.nextDocumentPosition = maxUint64 then .error .corrupt
    else .ok (state.header.nextDocumentPosition+1)
def changeOf : CommitChange where
  collectionID := state.header.id
  collectionName := []
  documentID := m.documentID
  operation := m.operation
  changedPaths := m.changedPaths
  before := .none
  after := .none
  beforeRef := if m.operation = .insert then none else some ⟨state.originalRoot,m.documentID⟩
  afterRef := none
def editDocuments (position : ℕ) : Except StorageError CollectionWriteState :=
  match m.operation with
  | .delete => .ok { state with
      tree := state.tree.erase m.documentID
      order := state.order.erase position
      header := { state.header with documentCount := state.header.documentCount - 1 } }
  | .insert =>
    if (state.order.find position).isSome then .error .corrupt
    else .ok { state with
      tree := state.tree.insert m.documentID ⟨position,m.document⟩
      order := state.order.insert position m.documentID
      header := { state.header with
        nextDocumentPosition := state.header.nextDocumentPosition+1
        documentCount := state.header.documentCount+1 } }
  | _ => .ok { state with tree := state.tree.insert m.documentID ⟨position,m.document⟩ }
def documentDeltaOf : CommitOperation → ℤ
  | .insert => 1
  | .delete => -1
  | _ => 0
def validDocumentMutation : Bool :=
  validCollectionName m.collection && !m.documentID.isZero && m.operation ≠ .catalog &&
    m.document.length ≤ maxDocumentBytes && decide (m.operation = .delete) == decide (m.document.length = 0)
def stageMutation (catalog : Catalog) (work : DocumentWork)
    (m : DocumentMutation) : Except StorageError DocumentWork :=
  if !validDocumentMutation m then .error .corrupt
  else if (m.collection,m.documentID) ∈ work.seenDocuments then .error .duplicateMutation
  else do
    let (state,newCollections) ← stateFor tx base catalog work m.collection
    let position ← mutationPosition state m
    let indexChanges ← prepareIndexMutations m.collection state m.operation m.documentID m.indexes position
    let edited ← editDocuments state m position
    .ok {
      states := work.states.insert m.collection edited
      seenDocuments := (m.collection,m.documentID) :: work.seenDocuments
      pending := work.pending ++ [(m.collection,changeOf state m)]
      pendingIndexes := work.pendingIndexes ++ indexChanges
      newCollections := newCollections
      documentDelta := work.documentDelta+documentDeltaOf m.operation }

/-! ### Publishing the staged collections -/

def storeChangedIndexes (sequence : ℕ) (indexCatalog : SortedMap Bytes IndexMeta)
    (indexes : List (Bytes × IndexWriteState)) : Except StorageError (SortedMap Bytes IndexMeta) :=
  indexes.foldlM (fun catalog e => do
    let definition ← encodeIndexMeta { e.2.definition with root := some e.2.tree, updatedSequence := sequence }
    .ok (catalog.insert e.1 definition)) indexCatalog
def finishCollection (sequence : ℕ) (state : CollectionWriteState) : Except StorageError CollectionMeta := do
  let changed := state.indexes.entries.filter (fun e => e.2.changed)
  let indexCatalog ← storeChangedIndexes sequence state.indexCatalog changed
  let header := { state.header with
    indexCatalogRoot := if changed.isEmpty then state.header.indexCatalogRoot else some indexCatalog
    primaryRoot := some state.tree
    orderRoot := some state.order
    updatedSequence := sequence }
  if state.tree.size ≠ header.documentCount || state.order.size ≠ header.documentCount then .error .corrupt
  else encodeCollectionMeta header
def catalogChange (id : ℕ) (name : Bytes) (path : Bytes) (before after : ChangeImage) : CommitChange :=
  ⟨id,name,zeroIdentifier,.catalog,[path],before,after,none,none⟩

/-- The bytes of `"_catalog"`. -/
def catalogPath : Bytes := [95,99,97,116,97,108,111,103]

/-- The bytes of `"_indexes."` before an index name. -/
def indexPath (name : Bytes) : Bytes := [95,105,110,100,101,120,101,115,46] ++ name
def publishCollection (sequence : ℕ) (acc : Catalog × List CommitChange) (e : Bytes × CollectionWriteState) :
    Except StorageError (Catalog × List CommitChange) := do
  let header ← finishCollection sequence e.2
  .ok ({ acc.1 with collections := acc.1.collections.insert e.1 header },
    if e.2.created then acc.2 ++ [catalogChange header.id e.1 catalogPath .none (.collection header)] else acc.2)

/-- `errSystemCASMismatch` when a private record does not have the expected value. -/
def systemStep (m : SystemRecordMutation) : Except StorageError Catalog := do
  match ← applySystemRecordMutation catalog m with
  | .mismatch _ => .error .systemMismatch
  | .applied catalog => .ok catalog
def withAfterRef (states : WriteStates) (item : Bytes × CommitChange) : CommitChange :=
  if item.2.operation = .delete then item.2
  else { item.2 with
    afterRef := some ⟨(states.find item.1).map CollectionWriteState.tree,item.2.documentID⟩ }
def finishDocuments (catalog : Catalog) (transaction : DocumentTransaction)
    (systemRecords : List SystemRecordMutation) (work : DocumentWork) :
    Except StorageError (WriteTxn × DatabaseRoot) := do
  let (catalog,catalogChanges) ← work.states.entries.foldlM (publishCollection tx.sequence) (catalog,[])
  let catalog ← systemRecords.foldlM systemStep catalog
  let (tx,commitLogRoot,oldest) ← appendCommitRetained tx base.commitLogRoot base.oldestRetainedSequence {
    sequence := tx.sequence, transactionID := transaction.transactionID, committedAt := transaction.committedAt
    catalogRoot := some catalog, changes := catalogChanges ++ work.pending.map (withAfterRef work.states) }
  if (base.documentCount : ℤ) + work.documentDelta < 0 then .error .corrupt
  else .ok (tx,{
    commitSequence := tx.sequence, catalogRoot := some catalog, commitLogRoot := commitLogRoot
    oldestRetainedSequence := oldest, catalogGeneration := base.catalogGeneration+work.newCollections
    documentCount := ((base.documentCount : ℤ) + work.documentDelta).toNat
    collectionCount := base.collectionCount+work.newCollections, indexBuildCatalogRoot := none })

/-- `applyDocumentSystemTransactionInWriteTxn`. -/
def applyDocuments (transaction : DocumentTransaction)
    (systemRecords : List SystemRecordMutation) : Except StorageError (WriteTxn × DatabaseRoot) := do
  let catalog := openCatalog base.catalogRoot
  validateCollectionPreconditions catalog transaction.collectionPreconditions
  validateDocumentPreconditions catalog transaction.preconditions
  let work ← transaction.mutations.foldlM (stageMutation tx base catalog) DocumentWork.start
  let states ← applyIndexMutations work.states work.pendingIndexes
  finishDocuments tx base catalog transaction systemRecords { work with states := states }
def validTransaction (transaction : DocumentTransaction) : Bool :=
  !transaction.transactionID.isZero && transaction.mutations ≠ []

variable (f : File)

/-- `ApplyDocumentTransaction`, and `ApplyDocumentSystemTransaction` when records are given. -/
def File.applyDocumentTransaction (transaction : DocumentTransaction)
    (systemRecords : List SystemRecordMutation) : Except StorageError File :=
  if 256 < systemRecords.length || !systemRecords.all validSystemRecordMutation ||
      !(systemRecords.map SystemRecordMutation.key).Nodup || !validTransaction transaction then .error .corrupt
  else f.updateAdvance 1 (fun tx => applyDocuments tx tx.baseRoot transaction systemRecords)
def groupStep (acc : WriteTxn × DatabaseRoot) (transaction : DocumentTransaction) :
    Except StorageError (WriteTxn × DatabaseRoot) :=
  if acc.2.commitSequence = maxUint64 then .error .corrupt
  else applyDocuments { acc.1 with sequence := acc.2.commitSequence+1 } acc.2 transaction []
def File.applyDocumentTransactionGroup (transactions : List DocumentTransaction) : Except StorageError File :=
  if transactions.length < 2 || 256 < transactions.length || !transactions.all validTransaction ||
      !(transactions.map DocumentTransaction.transactionID).Nodup then .error .corrupt
  else f.updateAdvance transactions.length (fun tx => transactions.foldlM groupStep (tx,tx.baseRoot))

/-! ### Collections, indexes, system records and markers -/

variable (transactionID : Identifier)

def File.applyCreateCollection (committedAt : ℕ) (name : Bytes) : Except StorageError File :=
  if transactionID.isZero || !validCollectionName name then .error .corrupt
  else f.updateAdvance 1 (fun tx =>
    let base := tx.baseRoot
    let catalog := openCatalog base.catalogRoot
    if base.collectionCount = maxUint32 then .error .corrupt
    else if (catalog.collections.find name).isSome then .error .collectionExists
    else do
      let header ← encodeCollectionMeta
        ⟨base.collectionCount+1,some ∅,some ∅,some ∅,0,tx.sequence,tx.sequence,0⟩
      let catalog := { catalog with collections := catalog.collections.insert name header }
      let (tx,commitLogRoot,oldest) ← appendCommitRetained tx base.commitLogRoot base.oldestRetainedSequence {
        sequence := tx.sequence, transactionID := transactionID, committedAt := committedAt, catalogRoot := some catalog
        changes := [catalogChange header.id name catalogPath .none (.collection header)] }
      .ok (tx,{ base with
        commitSequence := tx.sequence, catalogRoot := some catalog, commitLogRoot := commitLogRoot
        oldestRetainedSequence := oldest, catalogGeneration := base.catalogGeneration+1
        collectionCount := base.collectionCount+1 }))
def RequiredFeatures.withCompound (r : RequiredFeatures) (fields : List IndexField) : RequiredFeatures :=
  { r with compoundIndexes := r.compoundIndexes || compoundIndexFields fields }
def indexCollection (sequence : ℕ) (catalog : Catalog) (name : Bytes) :
    Except StorageError (CollectionMeta × Bool) :=
  match catalog.collections.find name with
  | some header => .ok (header,false)
  | none =>
    if base.collectionCount = maxUint32 then .error .corrupt
    else .ok (⟨base.collectionCount+1,some ∅,some ∅,none,0,sequence,sequence,0⟩,true)
def createIndex (t : CreateIndexTransaction) (fields : List IndexField) (entries : List IndexEntry) :
    Except StorageError (WriteTxn × DatabaseRoot) := do
  let tx := { tx with requiredFeatures := tx.requiredFeatures.withCompound fields }
  let base := tx.baseRoot
  let catalog := openCatalog base.catalogRoot
  let (collection,created) ← indexCollection base tx.sequence catalog t.collection
  let indexCatalog := openTree collection.indexCatalogRoot
  let previous := indexCatalog.find t.name
  if previous.isSome ≠ t.replaceExisting then .error (if previous.isSome then .indexExists else .indexNotFound)
  else
    let primary := openTree collection.primaryRoot
    let order := openTree collection.orderRoot
    if primary.size ≠ collection.documentCount || order.size ≠ collection.documentCount then .error .corrupt
    else do
      let resolved ← entries.mapM (resolveEntry primary order)
      let tree ← buildIndexTree resolved
      let definition ← encodeIndexMeta {
        name := t.name, fieldPath := (fields.head?.map IndexField.path).getD [], fields := fields, unique := t.unique
        root := some tree, entryCount := entries.length
        createdSequence := (previous.map IndexMeta.createdSequence).getD tx.sequence
        updatedSequence := tx.sequence, keyCodecVersion := 0 }
      let header ← encodeCollectionMeta { collection with
        indexCatalogRoot := some (indexCatalog.insert t.name definition), updatedSequence := tx.sequence }
      let catalog := { catalog with collections := catalog.collections.insert t.collection header }
      let event := catalogChange header.id [] (indexPath t.name)
        ((previous.map ChangeImage.index).getD .none) (.index definition)
      let creation := catalogChange header.id t.collection catalogPath .none (.collection header)
      let (tx,commitLogRoot,oldest) ← appendCommitRetained tx base.commitLogRoot base.oldestRetainedSequence {
        sequence := tx.sequence, transactionID := t.transactionID, committedAt := t.committedAt
        catalogRoot := some catalog, changes := if created then [creation,event] else [event] }
      .ok (tx,{ base with
        commitSequence := tx.sequence, catalogRoot := some catalog, commitLogRoot := commitLogRoot
        oldestRetainedSequence := oldest, catalogGeneration := base.catalogGeneration+1
        collectionCount := if created then base.collectionCount+1 else base.collectionCount })
def File.applyCreateIndex (t : CreateIndexTransaction) : Except StorageError File :=
  match normalizeIndexFields t.fieldPath t.fields with
  | none => .error .corrupt
  | some fields =>
    if t.transactionID.isZero || !validCollectionName t.collection || !validIndexName t.name then .error .corrupt
    else do
      let entries ← normalizeIndexEntries t.entries t.unique
      f.updateAdvance 1 (fun tx => createIndex tx t fields entries)
def systemCollectionID : ℕ := maxUint32

/-- The bytes of `"_system.records"`. -/
def systemRecordsPath : Bytes := [95,115,121,115,116,101,109,46,114,101,99,111,114,100,115]
def File.applySystemRecordTransaction (committedAt : ℕ)
    (m : SystemRecordMutation) : Except StorageError File :=
  if transactionID.isZero || !validSystemRecordMutation m then .error .corrupt
  else f.updateAdvance 1 (fun tx => do
    let base := tx.baseRoot
    let catalog ← systemStep (openCatalog base.catalogRoot) m
    let image := (catalog.system.map ChangeImage.directory).getD .none
    let (tx,commitLogRoot,oldest) ← appendCommitRetained tx base.commitLogRoot base.oldestRetainedSequence {
      sequence := tx.sequence, transactionID := transactionID, committedAt := committedAt, catalogRoot := some catalog
      changes := [catalogChange systemCollectionID [] systemRecordsPath .none image] }
    .ok (tx,{ base with
      commitSequence := tx.sequence, catalogRoot := some catalog, commitLogRoot := commitLogRoot
      oldestRetainedSequence := oldest }))

/-- The bytes of `"_replication.noop"`. -/
def replicationPath : Bytes := [95,114,101,112,108,105,99,97,116,105,111,110,46,110,111,111,112]
def File.applyReplicationNoop (committedAt : ℕ) : Except StorageError File :=
  if transactionID.isZero then .error .corrupt
  else f.updateAdvance 1 (fun tx => do
    let base := tx.baseRoot
    let (tx,commitLogRoot,oldest) ← appendCommitRetained tx base.commitLogRoot base.oldestRetainedSequence {
      sequence := tx.sequence, transactionID := transactionID, committedAt := committedAt
      catalogRoot := base.catalogRoot
      changes := [catalogChange systemCollectionID [] replicationPath .none .none] }
    .ok (tx,{ base with
      commitSequence := tx.sequence, commitLogRoot := commitLogRoot, oldestRetainedSequence := oldest }))

end Meldbase.Logical
