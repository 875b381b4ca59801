import Meldbase.Logical.Documents

/-! # Persistent index builds

A build scans a protected source catalog into a shadow tree, catches up from the
commit log and is finalized into the ordinary index catalog.  Times are the
milliseconds the build record stores.
-/
namespace Meldbase.Logical

def maxIndexBuildBatchEntries : ℕ := 4096
def maxIndexBuildBatchBytes : ℕ := 16*1024*1024
def maxIndexBuildCatchUpCommits : ℕ := 1024
def maxIndexBuildCatchUpMutations : ℕ := 10000

variable (m : IndexBuildMeta)

def validIndexBuildMeta : Bool :=
  !m.buildID.isZero && m.collectionID ≠ 0 && validCollectionName m.collection && validIndexName m.name &&
    (normalizeIndexFields m.fieldPath m.fields).isSome && m.sourceSequence ≠ 0 && m.sourceCatalogRoot.isSome &&
    m.shadowRoot.isSome && m.sourceSequence ≤ m.appliedSequence && m.createdAt ≤ m.updatedAt &&
    (m.phase ≠ .scan || (m.appliedSequence = m.sourceSequence && m.appliedCatalogRoot.isNone)) &&
    decide (m.phase = .failed) == decide (m.failure ≠ .none)
def indexBuildCodec (fields : List IndexField) : ℕ := if compoundIndexFields fields then indexKeyCodecV3 else indexKeyCodec
def IndexBuildMeta.stored (fields : List IndexField) : IndexBuildMeta := { m with
  fieldPath := (fields.head?.map IndexField.path).getD []
  fields := if compoundIndexFields fields then fields else [] }
def encodeIndexBuildMeta : Except StorageError IndexBuildMeta :=
  match normalizeIndexFields m.fieldPath m.fields with
  | none => .error .corrupt
  | some fields =>
    if !validIndexBuildMeta m || maxUint16 < m.collection.length || maxUint16 < m.name.length ||
        maxUint16 < indexPayloadBytes (indexBuildCodec fields) fields then .error .corrupt
    else .ok (m.stored fields)
def findBuild (base : DatabaseRoot) (buildID : Identifier) : Except StorageError IndexBuildMeta :=
  match (openTree base.indexBuildCatalogRoot).find buildID with
  | none => .error .buildNotFound
  | some build => .ok { build with buildID := buildID }

variable (tx : WriteTxn) (build : IndexBuildMeta)

/-- Publishes a changed build record at an unchanged logical sequence. -/
def putBuild : Except StorageError (WriteTxn × DatabaseRoot) := do
  let build ← encodeIndexBuildMeta build
  .ok ({ tx with indexBuildCatalogChanged := true }, { tx.baseRoot with
    indexBuildCatalogRoot := some ((openTree tx.baseRoot.indexBuildCatalogRoot).insert build.buildID build) })

/-- The build catalog without a record; an empty catalog has no tree. -/
def withoutBuild (builds : Root Identifier IndexBuildMeta) (buildID : Identifier) : Root Identifier IndexBuildMeta :=
  let tree := (openTree builds).erase buildID
  if tree.size = 0 then none else some tree

/-! ### Begin, fail, abort -/

structure BeginIndexBuildTransaction where
  buildID : Identifier
  (collection name fieldPath : Bytes)
  fields : List IndexField
  (unique replaceExisting : Bool)
  createdAt : ℕ

def newBuild (t : BeginIndexBuildTransaction) (base : DatabaseRoot) (sequence collectionID : ℕ)
    (fields : List IndexField) : IndexBuildMeta where
  buildID := t.buildID
  collectionID := collectionID
  collection := t.collection
  name := t.name
  fieldPath := (fields.head?.map IndexField.path).getD []
  fields := fields
  unique := t.unique
  replaceExisting := t.replaceExisting
  phase := .scan
  failure := .none
  sourceSequence := sequence
  sourceCatalogRoot := base.catalogRoot
  appliedCatalogRoot := none
  shadowRoot := some ∅
  scanAfter := zeroIdentifier
  appliedSequence := sequence
  entryCount := 0
  canonicalBytes := 0
  createdAt := t.createdAt
  updatedAt := t.createdAt
def beginBuild (t : BeginIndexBuildTransaction) (fields : List IndexField) :
    Except StorageError (WriteTxn × DatabaseRoot) :=
  let base := tx.baseRoot
  if tx.sequence = 0 || base.catalogRoot.isNone then .error .buildState
  else
    let tx := { tx with
      requiredFeatures := { tx.requiredFeatures.withCompound fields with shadowIndexBuilds := true } }
    match (openCatalog base.catalogRoot).collections.find t.collection with
    | none => .error .buildState
    | some collection =>
      let existing := ((openTree collection.indexCatalogRoot).find t.name).isSome
      let builds := openTree base.indexBuildCatalogRoot
      if existing ≠ t.replaceExisting then .error (if existing then .indexExists else .buildState)
      else if (builds.find t.buildID).isSome then .error .buildExists
      else if maxConcurrentIndexBuilds ≤ builds.size then .error .buildState
      else if builds.entries.any (fun e => e.2.collectionID = collection.id && e.2.name = t.name) then
        .error .buildExists
      else putBuild tx (newBuild t base tx.sequence collection.id fields)

variable (f : File)

def File.beginIndexBuild (t : BeginIndexBuildTransaction) : Except StorageError File :=
  match normalizeIndexFields t.fieldPath t.fields with
  | none => .error .corrupt
  | some fields =>
    if t.buildID.isZero || !validCollectionName t.collection || !validIndexName t.name then .error .corrupt
    else f.updateAdvance 0 (fun tx => beginBuild tx t fields)
def File.failIndexBuild (buildID : Identifier) (failure : IndexBuildFailure) (updatedAt : ℕ) :
    Except StorageError File :=
  if buildID.isZero || failure = .none then .error .corrupt
  else f.updateAdvance 0 (fun tx => do
    let build ← findBuild tx.baseRoot buildID
    if build.phase = .failed || updatedAt < build.updatedAt then .error .buildState
    else putBuild tx { build with phase := .failed, failure := failure, updatedAt := updatedAt })
def File.abortIndexBuild (buildID : Identifier) : Except StorageError File :=
  if buildID.isZero then .error .corrupt
  else f.updateAdvance 0 (fun tx => do
    let _ ← findBuild tx.baseRoot buildID
    .ok ({ tx with indexBuildCatalogChanged := true },
      { tx.baseRoot with indexBuildCatalogRoot := withoutBuild tx.baseRoot.indexBuildCatalogRoot buildID }))

/-! ### Scanning the source -/

structure IndexBuildScanBatch where
  (buildID expectedScanAfter scanAfter : Identifier)
  entries : List IndexEntry
  complete : Bool
  updatedAt : ℕ

/-- Shadow tree, last document and accounted bytes while a scan batch is applied. -/
structure ScanWork where
  shadow : SecondaryTree
  previousID : Identifier
  batchBytes : ℕ

def scanEntry (primary : PrimaryTree) (order : OrderTree) (scanAfter : Identifier) (work : ScanWork)
    (entry : IndexEntry) : Except StorageError ScanWork :=
  if entry.key = [] || maxSecondaryScalarKeyBytes < entry.key.length || entry.documentID.isZero ||
      entry.documentID ≤ work.previousID || (!scanAfter.isZero && scanAfter < entry.documentID) then .error .corrupt
  else match primary.find entry.documentID with
    | none => .error .corrupt
    | some record =>
      if entry.insertionPosition ≠ 0 && entry.insertionPosition ≠ record.position then .error .corrupt
      else if order.find record.position ≠ some entry.documentID then .error .corrupt
      else do
        let key ← secondaryKey entry.key record.position entry.documentID
        if maxIndexBuildBatchBytes < work.batchBytes || maxIndexBuildBatchBytes - work.batchBytes < key.length then
          .error .buildState
        else .ok ⟨work.shadow.insert key [0],entry.documentID,work.batchBytes+key.length⟩
def sourceCollection : Except StorageError CollectionMeta :=
  match (openCatalog build.sourceCatalogRoot).collections.find build.collection with
  | none => .error .corrupt
  | some collection => if collection.id ≠ build.collectionID then .error .corrupt else .ok collection

variable (batch : IndexBuildScanBatch)

def scanBatchAllowed : Bool :=
  build.phase = .scan && build.scanAfter = batch.expectedScanAfter && build.updatedAt ≤ batch.updatedAt &&
    (batch.complete || (!batch.scanAfter.isZero && build.scanAfter < batch.scanAfter)) &&
    (!batch.complete || build.scanAfter ≤ batch.scanAfter)
def IndexBuildMeta.afterScan (work : ScanWork) (sequence : ℕ) : IndexBuildMeta := { build with
  shadowRoot := some work.shadow
  scanAfter := batch.scanAfter
  entryCount := build.entryCount+batch.entries.length
  canonicalBytes := build.canonicalBytes+work.batchBytes
  updatedAt := batch.updatedAt
  phase := if batch.complete then (if build.appliedSequence = sequence then .ready else .catchUp) else .scan }
def applyScanBatch : Except StorageError (WriteTxn × DatabaseRoot) :=
  if tx.baseRoot.indexBuildCatalogRoot.isNone || !tx.requiredFeatures.shadowIndexBuilds then .error .buildNotFound
  else do
    let build ← findBuild tx.baseRoot batch.buildID
    if !scanBatchAllowed build batch then .error .buildState
    else do
      let collection ← sourceCollection build
      let work ← batch.entries.foldlM
        (scanEntry (openTree collection.primaryRoot) (openTree collection.orderRoot) batch.scanAfter)
        ⟨openTree build.shadowRoot,build.scanAfter,0⟩
      if batch.entries ≠ [] && batch.scanAfter < work.previousID then .error .buildState
      else if maxUint64 < build.entryCount+batch.entries.length || maxUint64 < build.canonicalBytes+work.batchBytes then
        .error .corrupt
      else putBuild tx (build.afterScan batch work tx.sequence)
def File.applyIndexBuildScanBatch : Except StorageError File :=
  if batch.buildID.isZero || maxIndexBuildBatchEntries < batch.entries.length then .error .corrupt
  else f.updateAdvance 0 (fun tx => applyScanBatch tx batch)

/-! ### Catching up -/

structure IndexBuildCatchUpMutation where
  sequence : ℕ
  documentID : Identifier
  operation : CommitOperation
  (beforeKey afterKey : Bytes)

structure IndexBuildCatchUpBatch where
  buildID : Identifier
  (expectedAppliedSequence throughSequence : ℕ)
  mutations : List IndexBuildCatchUpMutation
  updatedAt : ℕ

/-- Shadow tree, totals and mutations not yet used while a catch-up batch is applied. -/
structure CatchUpWork where
  shadow : SecondaryTree
  (entryCount canonicalBytes : ℕ)
  mutations : List IndexBuildCatchUpMutation

/-- `indexBuildVersionPosition`. -/
def versionPosition (ref : DocumentVersionRef) (documentID : Identifier) : Except StorageError ℕ :=
  if ref.primaryRoot.isNone || ref.documentID ≠ documentID then .error .corrupt
  else match (openTree ref.primaryRoot).find documentID with
    | none => .error .corrupt
    | some record => .ok record.position

/-- A missing version is legal only on the side where the operation has none. -/
def refPosition (ref : Option DocumentVersionRef) (documentID : Identifier) (absent : Bool) : Except StorageError ℕ :=
  match ref with
  | some r => versionPosition r documentID
  | none => if absent then .ok 0 else .error .corrupt
def removeShadowKey (work : CatchUpWork) (scalar : Bytes) (position : ℕ) (documentID : Identifier) :
    Except StorageError CatchUpWork :=
  if scalar = [] then .ok work
  else do
    let key ← secondaryKey scalar position documentID
    if (work.shadow.find key).isNone || work.entryCount = 0 || work.canonicalBytes < key.length then .error .buildState
    else .ok { work with
      shadow := work.shadow.erase key
      entryCount := work.entryCount - 1
      canonicalBytes := work.canonicalBytes - key.length }
def addShadowKey (work : CatchUpWork) (scalar : Bytes) (position : ℕ) (documentID : Identifier) :
    Except StorageError CatchUpWork :=
  if scalar = [] then .ok work
  else do
    let key ← secondaryKey scalar position documentID
    if work.entryCount = maxUint64 || maxUint64 < work.canonicalBytes+key.length then .error .corrupt
    else .ok { work with
      shadow := work.shadow.insert key [0]
      entryCount := work.entryCount+1
      canonicalBytes := work.canonicalBytes+key.length }
def mutationMatches (sequence : ℕ) (change : CommitChange) (m : IndexBuildCatchUpMutation) : Bool :=
  m.sequence = sequence && m.documentID = change.documentID && m.operation = change.operation &&
    m.beforeKey.length ≤ maxSecondaryScalarKeyBytes && m.afterKey.length ≤ maxSecondaryScalarKeyBytes &&
    (change.operation ≠ .insert || m.beforeKey = []) && (change.operation ≠ .delete || m.afterKey = [])
def catchUpChange (collectionID sequence : ℕ) (work : CatchUpWork) (change : CommitChange) :
    Except StorageError CatchUpWork :=
  if change.collectionID ≠ collectionID || change.operation = .catalog then .ok work
  else match work.mutations with
    | [] => .error .buildState
    | m::rest =>
      if !mutationMatches sequence change m then .error .buildState
      else do
        let beforePosition ← refPosition change.beforeRef change.documentID (change.operation = .insert)
        let afterPosition ← refPosition change.afterRef change.documentID (change.operation = .delete)
        if change.operation = .update && beforePosition ≠ afterPosition then .error .corrupt
        else do
          let work ← removeShadowKey { work with mutations := rest } m.beforeKey beforePosition m.documentID
          addShadowKey work m.afterKey afterPosition m.documentID

/-- Applies the commits from `sequence` on; the catalog of the last one is returned. -/
def catchUpCommits (log : CommitTree) (oldest collectionID : ℕ) :
    ℕ → ℕ → CatchUpWork → Option Catalog → Except StorageError (CatchUpWork × Option Catalog)
  | _, 0, work, through => .ok (work,through)
  | sequence, n+1, work, _ =>
    match readCommit log sequence with
    | .error e => .error (if sequence < oldest then .buildHistoryLost else e)
    | .ok commit =>
      if commit.catalogRoot.isNone then .error .corrupt
      else do
        let work ← commit.changes.foldlM (catchUpChange collectionID sequence) work
        catchUpCommits log oldest collectionID (sequence+1) n work commit.catalogRoot
def catchUpAllowed (batch : IndexBuildCatchUpBatch) (latest : ℕ) : Bool :=
  (build.phase = .catchUp || build.phase = .ready) && build.appliedSequence = batch.expectedAppliedSequence &&
    build.appliedSequence < batch.throughSequence && batch.throughSequence ≤ latest &&
    batch.throughSequence - build.appliedSequence ≤ maxIndexBuildCatchUpCommits && build.updatedAt ≤ batch.updatedAt
def IndexBuildMeta.afterCatchUp (batch : IndexBuildCatchUpBatch) (work : CatchUpWork)
    (through : Option Catalog) (sequence : ℕ) : IndexBuildMeta := { build with
  shadowRoot := some work.shadow
  appliedSequence := batch.throughSequence
  appliedCatalogRoot := through
  entryCount := work.entryCount
  canonicalBytes := work.canonicalBytes
  updatedAt := batch.updatedAt
  phase := if batch.throughSequence = sequence then .ready else .catchUp }
def applyCatchUpBatch (batch : IndexBuildCatchUpBatch) : Except StorageError (WriteTxn × DatabaseRoot) := do
  let base := tx.baseRoot
  let build ← findBuild base batch.buildID
  if !catchUpAllowed build batch tx.sequence then .error .buildState
  else if base.oldestRetainedSequence = 0 || build.appliedSequence+1 < base.oldestRetainedSequence then
    .error .buildHistoryLost
  else do
    let (work,through) ← catchUpCommits (openTree base.commitLogRoot) base.oldestRetainedSequence build.collectionID
      (build.appliedSequence+1) (batch.throughSequence - build.appliedSequence)
      ⟨openTree build.shadowRoot,build.entryCount,build.canonicalBytes,batch.mutations⟩ none
    if work.mutations.length ≠ 0 then .error .buildState
    else
      putBuild { tx with requiredFeatures := { tx.requiredFeatures with indexBuildAppliedRoot := true } }
        (build.afterCatchUp batch work through tx.sequence)
def File.applyIndexBuildCatchUpBatch (batch : IndexBuildCatchUpBatch) : Except StorageError File :=
  if batch.buildID.isZero || maxIndexBuildCatchUpMutations < batch.mutations.length then .error .corrupt
  else f.updateAdvance 0 (fun tx => applyCatchUpBatch tx batch)

/-! ### Finalizing -/

def shadowStep (previous : Option Bytes) (e : Bytes × Bytes) : Except StorageError (Option Bytes) := do
  let (scalar,_,_) ← secondaryKeyParts e.1
  if e.2 ≠ [0] then .error .corrupt
  else if previous = some scalar then .error .uniqueConflict
  else .ok (some scalar)

/-- `validateUniqueShadowUnlocked`. -/
def validateUniqueShadow (shadow : SecondaryTree) (expectedCount : ℕ) : Except StorageError Unit := do
  let _ ← shadow.entries.foldlM shadowStep none
  if shadow.size ≠ expectedCount then .error .corrupt else .ok ()
def checkUniqueShadow : Except StorageError Unit :=
  if build.unique then validateUniqueShadow (openTree build.shadowRoot) build.entryCount else .ok ()

structure FinalizeIndexBuildTransaction where
  (buildID transactionID : Identifier)
  (expectedAppliedSequence committedAt : ℕ)

def finalizeBuild (t : FinalizeIndexBuildTransaction) : Except StorageError (WriteTxn × DatabaseRoot) := do
  let base := tx.baseRoot
  let build ← findBuild base t.buildID
  if build.phase ≠ .ready || build.appliedSequence ≠ t.expectedAppliedSequence ||
      build.appliedSequence ≠ base.commitSequence then .error .buildState
  else
    if (openTree build.shadowRoot).size ≠ build.entryCount then .error .corrupt
    else do
      checkUniqueShadow build
      let catalog := openCatalog base.catalogRoot
      match catalog.collections.find build.collection with
      | none => .error .corrupt
      | some collection =>
        let indexCatalog := openTree collection.indexCatalogRoot
        let previous := indexCatalog.find build.name
        if collection.id ≠ build.collectionID then .error .corrupt
        else if previous.isSome ≠ build.replaceExisting then
          .error (if previous.isSome then .indexExists else .buildState)
        else do
          let definition ← encodeIndexMeta {
            name := build.name, fieldPath := build.fieldPath, fields := build.fields, unique := build.unique
            root := build.shadowRoot, entryCount := build.entryCount
            createdSequence := (previous.map IndexMeta.createdSequence).getD tx.sequence
            updatedSequence := tx.sequence, keyCodecVersion := 0 }
          let header ← encodeCollectionMeta { collection with
            indexCatalogRoot := some (indexCatalog.insert build.name definition), updatedSequence := tx.sequence }
          let catalog := { catalog with collections := catalog.collections.insert build.collection header }
          let tx := { tx with indexBuildCatalogChanged := true }
          let (tx,commitLogRoot,oldest) ← appendCommitRetained tx base.commitLogRoot base.oldestRetainedSequence {
            sequence := tx.sequence, transactionID := t.transactionID, committedAt := t.committedAt
            catalogRoot := some catalog
            changes := [catalogChange collection.id [] (indexPath build.name)
              ((previous.map ChangeImage.index).getD .none) (.index definition)] }
          .ok (tx,{ base with
            commitSequence := tx.sequence, catalogRoot := some catalog, commitLogRoot := commitLogRoot
            oldestRetainedSequence := oldest, catalogGeneration := base.catalogGeneration+1
            indexBuildCatalogRoot := withoutBuild base.indexBuildCatalogRoot t.buildID })
def File.finalizeIndexBuild (t : FinalizeIndexBuildTransaction) : Except StorageError File :=
  if t.buildID.isZero || t.transactionID.isZero then .error .corrupt
  else f.updateAdvance 1 (fun tx => finalizeBuild tx t)

end Meldbase.Logical
