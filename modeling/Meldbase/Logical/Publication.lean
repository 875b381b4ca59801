import Meldbase.Logical.DurableConsumer

/-! # Publications

Every way the storage layer publishes a new root, and what each of them does to
the commit log, the catalog, the system records and the build catalog.  Later
modules derive their invariants from these inversion lemmas only.
-/
namespace Meldbase.Logical
open Outcome (bind_eq_ok guard_eq_ok)

inductive Publication where
  | documents (t : DocumentTransaction) (systemRecords : List SystemRecordMutation)
  | group (ts : List DocumentTransaction)
  | createCollection (transactionID : Identifier) (committedAt : ℕ) (name : Bytes)
  | createIndex (t : CreateIndexTransaction)
  | systemRecord (transactionID : Identifier) (committedAt : ℕ) (m : SystemRecordMutation)
  | replicationNoop (transactionID : Identifier) (committedAt : ℕ)
  | retainCommitsFrom (keepFrom : ℕ) (transactionID : Identifier) (committedAt : ℕ)
  | beginIndexBuild (t : BeginIndexBuildTransaction)
  | scanBatch (batch : IndexBuildScanBatch)
  | catchUpBatch (batch : IndexBuildCatchUpBatch)
  | finalizeIndexBuild (t : FinalizeIndexBuildTransaction)
  | failIndexBuild (buildID : Identifier) (failure : IndexBuildFailure) (updatedAt : ℕ)
  | abortIndexBuild (buildID : Identifier)
  | replaceCheckpoints (cs : List Checkpoint)
  | initialConsumer (name : Bytes) (transactionID : Identifier)

def Publication.apply [Sha256] : Publication → File → Except StorageError File
  | .documents t records, f => f.applyDocumentTransaction t records
  | .group ts, f => f.applyDocumentTransactionGroup ts
  | .createCollection transactionID committedAt name, f => f.applyCreateCollection transactionID committedAt name
  | .createIndex t, f => f.applyCreateIndex t
  | .systemRecord transactionID committedAt m, f => f.applySystemRecordTransaction transactionID committedAt m
  | .replicationNoop transactionID committedAt, f => f.applyReplicationNoop transactionID committedAt
  | .retainCommitsFrom keepFrom transactionID committedAt, f => f.retainCommitsFrom keepFrom transactionID committedAt
  | .beginIndexBuild t, f => f.beginIndexBuild t
  | .scanBatch batch, f => f.applyIndexBuildScanBatch batch
  | .catchUpBatch batch, f => f.applyIndexBuildCatchUpBatch batch
  | .finalizeIndexBuild t, f => f.finalizeIndexBuild t
  | .failIndexBuild buildID failure updatedAt, f => f.failIndexBuild buildID failure updatedAt
  | .abortIndexBuild buildID, f => f.abortIndexBuild buildID
  | .replaceCheckpoints cs, f => f.replaceDurableConsumerCheckpoints cs
  | .initialConsumer name transactionID, f => f.createInitialDurableConsumer name transactionID

variable {f f' : File} {tx : WriteTxn} {root : DatabaseRoot} {tx' : WriteTxn} {records : List SystemRecordMutation}
  {catalog : Catalog} {transactionID : Identifier} {committedAt : ℕ}

theorem Updated.catalogRoot (h : Updated f advance tx root f') : f'.root.catalogRoot = root.catalogRoot := by
  rw [h.file]
  exact WriteTxn.finalRoot_catalogRoot tx root

theorem Updated.commitSequence (h : Updated f advance tx root f') : f'.root.commitSequence = f.root.commitSequence+advance := by
  rw [h.file,← h.sequence]
  exact WriteTxn.finalRoot_commitSequence tx root

/-! ### One appended commit -/

/-- `root` is `base` with one more commit, whose catalog it carries. -/
structure Appends (tx : WriteTxn) (base : DatabaseRoot) (batch : CommitBatch) (tx' : WriteTxn)
    (root : DatabaseRoot) : Prop where
  append : appendCommitRetained tx base.commitLogRoot base.oldestRetainedSequence batch =
    .ok (tx',root.commitLogRoot,root.oldestRetainedSequence)
  sequence : root.commitSequence = tx.sequence
  batch_sequence : batch.sequence = tx.sequence
  catalog : root.catalogRoot = batch.catalogRoot

theorem pruneCommitTree_txn (h : pruneCommitTree tx tree oldest latest = .ok (tx',tree',keepFrom)) :
    tx' = { tx with retainedCommitBytes := tx'.retainedCommitBytes, retentionEvaluated := true } := by
  unfold pruneCommitTree at h
  obtain ⟨-,h⟩ := guard_eq_ok.mp h
  obtain ⟨limit,-,h⟩ := bind_eq_ok.mp h
  obtain ⟨⟨t,r,k⟩,-,h⟩ := bind_eq_ok.mp h
  cases h
  rfl

theorem appendCommitRetained_txn {root root' : Root CommitKey CommitValue}
    (h : appendCommitRetained tx root oldest batch = .ok (tx',root',keepFrom)) :
    tx' = { tx with retainedCommitBytes := tx'.retainedCommitBytes, retentionEvaluated := true } := by
  unfold appendCommitRetained at h
  obtain ⟨⟨tree,bytes⟩,-,h⟩ := bind_eq_ok.mp h
  dsimp only at h
  split_ifs at h
  all_goals
    obtain ⟨⟨t,tr,k⟩,hprune,h⟩ := bind_eq_ok.mp h
    cases h
    rw [pruneCommitTree_txn hprune]

theorem Appends.txn (h : Appends tx base batch tx' root) :
    tx' = { tx with retainedCommitBytes := tx'.retainedCommitBytes, retentionEvaluated := true } :=
  appendCommitRetained_txn h.append

/-! ### Documents -/

theorem publishCollection_system {sequence : ℕ}
    (h : publishCollection sequence acc e = .ok acc') :
    acc'.1.system = acc.1.system := by
  unfold publishCollection at h
  obtain ⟨header,-,h⟩ := bind_eq_ok.mp h
  cases h
  rfl

structure DocumentsApplied [Sha256] (tx : WriteTxn) (base : DatabaseRoot) (t : DocumentTransaction)
    (records : List SystemRecordMutation) (tx' : WriteTxn) (root : DatabaseRoot) (work : DocumentWork)
    (states : WriteStates) (published catalog : Catalog) (catalogChanges : List CommitChange) : Prop where
  collections_read : validateCollectionPreconditions (openCatalog base.catalogRoot) t.collectionPreconditions = .ok ()
  documents_read : validateDocumentPreconditions (openCatalog base.catalogRoot) t.preconditions = .ok ()
  staged : t.mutations.foldlM (stageMutation tx base (openCatalog base.catalogRoot)) DocumentWork.start = .ok work
  indexed : applyIndexMutations work.states work.pendingIndexes = .ok states
  publish : states.entries.foldlM (publishCollection tx.sequence) (openCatalog base.catalogRoot,[]) =
    .ok (published,catalogChanges)
  system : records.foldlM systemStep published = .ok catalog
  appends : Appends tx base ⟨tx.sequence,t.transactionID,t.committedAt,some catalog,
    catalogChanges ++ work.pending.map (withAfterRef states)⟩ tx' root
  collections : root.collectionCount = base.collectionCount+work.newCollections

theorem applyDocuments_ok [Sha256] {base : DatabaseRoot}
    (h : applyDocuments tx base t records = .ok (tx',root)) :
    ∃ work states published catalog catalogChanges,
      DocumentsApplied tx base t records tx' root work states published catalog catalogChanges := by
  unfold applyDocuments at h
  dsimp only at h
  obtain ⟨_,hcollections,h⟩ := bind_eq_ok.mp h
  obtain ⟨_,hdocuments,h⟩ := bind_eq_ok.mp h
  obtain ⟨work,hwork,h⟩ := bind_eq_ok.mp h
  obtain ⟨states,hstates,h⟩ := bind_eq_ok.mp h
  unfold finishDocuments at h
  obtain ⟨⟨published,changes⟩,hpublished,h⟩ := bind_eq_ok.mp h
  obtain ⟨catalog,hcatalog,h⟩ := bind_eq_ok.mp h
  obtain ⟨⟨tx1,log,oldest⟩,happend,h⟩ := bind_eq_ok.mp h
  dsimp only at h
  split_ifs at h
  cases h
  have htx : tx'.sequence = tx.sequence := by rw [appendCommitRetained_txn happend]
  exact ⟨work,states,published,catalog,changes,hcollections,hdocuments,hwork,hstates,hpublished,hcatalog,
    ⟨happend,htx,rfl,rfl⟩,rfl⟩

/-! ### System records -/

theorem systemStep_ok [Sha256]
    (h : systemStep catalog m = .ok catalog') : applySystemRecordMutation catalog m = .ok (.applied catalog') := by
  unfold systemStep at h
  obtain ⟨outcome,hm,h⟩ := bind_eq_ok.mp h
  cases outcome with
  | mismatch current => cases h
  | applied c =>
    cases h
    exact hm

theorem storeDirectory_ok [Sha256] {root : Option Catalog}
    (h : storeDirectory root encoded = .ok catalog) :
    applySystemRecordMutation (openCatalog root) (directoryMutation encoded) = .ok (.applied catalog) := by
  unfold storeDirectory at h
  obtain ⟨outcome,hm,h⟩ := bind_eq_ok.mp h
  cases outcome with
  | mismatch current => cases h
  | applied c =>
    cases h
    exact hm

def recordAfter (records : List SystemRecordMutation) (old : Option Bytes) (key : Bytes) : Option Bytes :=
  match records.find? (fun m => m.key = key) with
  | none => old
  | some m => if m.delete then none else some m.newValue

theorem foldlM_systemStep [Sha256]
    (hnodup : (records.map SystemRecordMutation.key).Nodup) (h : records.foldlM systemStep catalog = .ok catalog') :
    catalog'.collections = catalog.collections ∧
      ∀ key, getSystemRecord (some catalog') key = recordAfter records (getSystemRecord (some catalog) key) key := by
  induction records generalizing catalog with
  | nil =>
    cases h
    exact ⟨rfl,fun key => rfl⟩
  | cons m records ih =>
    rw [List.foldlM_cons] at h
    obtain ⟨c,hc,h⟩ := bind_eq_ok.mp h
    rw [List.map_cons,List.nodup_cons] at hnodup
    obtain ⟨hcol,hval⟩ := applySystemRecordMutation_applied (systemStep_ok hc)
    obtain ⟨hcol',hval'⟩ := ih hnodup.2 h
    refine ⟨hcol'.trans hcol,?_⟩
    intro key
    rw [hval',hval,recordAfter,recordAfter,List.find?_cons]
    by_cases hkey : m.key = key
    · -- no later change has the same key
      have hnone : records.find? (fun m => m.key = key) = none := by
        rw [List.find?_eq_none]
        intro m' hm'
        simp only [decide_eq_true_eq]
        rintro rfl
        exact hnodup.1 (hkey ▸ List.mem_map_of_mem hm')
      simp [hkey,hnone]
    · simp [hkey,Ne.symm hkey]

/-! ### Collections, indexes and markers -/

def emptyCollection (id sequence : ℕ) : CollectionMeta := ⟨id,some ∅,some ∅,some ∅,0,sequence,sequence,0⟩

theorem applyCreateCollection_ok {name : Bytes}
    (h : f.applyCreateCollection transactionID committedAt name = .ok f') :
    ∃ tx root batch, Updated f 1 tx root f' ∧ Appends (f.beginUpdate 1) f.root batch tx root ∧
      (openCatalog f.root.catalogRoot).collections.find name = none ∧
      batch.catalogRoot = some { openCatalog f.root.catalogRoot with
        collections := (openCatalog f.root.catalogRoot).collections.insert name
          (emptyCollection (f.root.collectionCount+1) (f.root.commitSequence+1)) } ∧
      (∀ c ∈ batch.changes, c.operation = .catalog) ∧ root.collectionCount = f.root.collectionCount+1 := by
  unfold File.applyCreateCollection at h
  split_ifs at h
  obtain ⟨tx,root,hbuilt,hup⟩ := updateAdvance_ok h
  dsimp only at hbuilt
  split_ifs at hbuilt with hfull hexists
  obtain ⟨header,hheader,hbuilt⟩ := bind_eq_ok.mp hbuilt
  obtain ⟨⟨tx1,log,oldest⟩,happend,hbuilt⟩ := bind_eq_ok.mp hbuilt
  unfold encodeCollectionMeta at hheader
  split_ifs at hheader
  cases hheader
  cases hbuilt
  have htx : tx1.sequence = (f.beginUpdate 1).sequence := by rw [appendCommitRetained_txn happend]
  refine ⟨tx1,_,_,hup,⟨happend,htx,rfl,rfl⟩,?_,rfl,?_,rfl⟩
  · exact Option.not_isSome_iff_eq_none.mp hexists
  · simp [catalogChange]

structure IndexCreated (tx : WriteTxn) (t : CreateIndexTransaction) (fields : List IndexField)
    (entries : List IndexEntry) (tx' : WriteTxn) (root : DatabaseRoot) (collection : CollectionMeta) (created : Bool)
    (resolved : List IndexEntry) (tree : SecondaryTree) (definition : IndexMeta) (header : CollectionMeta)
    (changes : List CommitChange) : Prop where
  collection_eq : indexCollection tx.baseRoot tx.sequence (openCatalog tx.baseRoot.catalogRoot) t.collection =
    .ok (collection,created)
  replaces : ((openTree collection.indexCatalogRoot).find t.name).isSome = t.replaceExisting
  resolved_eq : entries.mapM (resolveEntry (openTree collection.primaryRoot) (openTree collection.orderRoot)) =
    .ok resolved
  tree_eq : buildIndexTree resolved = .ok tree
  definition_eq : encodeIndexMeta {
    name := t.name, fieldPath := (fields.head?.map IndexField.path).getD [], fields := fields, unique := t.unique
    root := some tree, entryCount := entries.length
    createdSequence := (((openTree collection.indexCatalogRoot).find t.name).map IndexMeta.createdSequence).getD tx.sequence
    updatedSequence := tx.sequence, keyCodecVersion := 0 } = .ok definition
  header_eq : encodeCollectionMeta { collection with
    indexCatalogRoot := some ((openTree collection.indexCatalogRoot).insert t.name definition)
    updatedSequence := tx.sequence } = .ok header
  appends : Appends { tx with requiredFeatures := tx.requiredFeatures.withCompound fields } tx.baseRoot
    ⟨tx.sequence,t.transactionID,t.committedAt,some { openCatalog tx.baseRoot.catalogRoot with
      collections := (openCatalog tx.baseRoot.catalogRoot).collections.insert t.collection header },changes⟩ tx' root
  catalogOnly : ∀ c ∈ changes, c.operation = .catalog
  collections : root.collectionCount = tx.baseRoot.collectionCount+created.toNat

theorem createIndex_ok {t : CreateIndexTransaction}
    (h : createIndex tx t fields entries = .ok (tx',root)) :
    ∃ collection created resolved tree definition header changes,
      IndexCreated tx t fields entries tx' root collection created resolved tree definition header changes := by
  unfold createIndex at h
  dsimp only at h
  obtain ⟨⟨collection,created⟩,hcollection,h⟩ := bind_eq_ok.mp h
  dsimp only at h
  by_cases hreplace : ((openTree collection.indexCatalogRoot).find t.name).isSome ≠ t.replaceExisting
  · rw [if_pos hreplace] at h
    cases h
  rw [if_neg hreplace] at h
  by_cases hsize : ((openTree collection.primaryRoot).size ≠ collection.documentCount ||
      (openTree collection.orderRoot).size ≠ collection.documentCount) = true
  · rw [if_pos hsize] at h
    cases h
  rw [if_neg hsize] at h
  obtain ⟨resolved,hresolved,h⟩ := bind_eq_ok.mp h
  obtain ⟨tree,htree,h⟩ := bind_eq_ok.mp h
  obtain ⟨definition,hdefinition,h⟩ := bind_eq_ok.mp h
  obtain ⟨header,hheader,h⟩ := bind_eq_ok.mp h
  obtain ⟨⟨tx1,log,oldest⟩,happend,h⟩ := bind_eq_ok.mp h
  cases h
  have htx : tx1.sequence = tx.sequence := by rw [appendCommitRetained_txn happend]
  refine ⟨collection,created,resolved,tree,definition,header,_,hcollection,not_not.mp hreplace,hresolved,
    htree,hdefinition,hheader,⟨happend,htx,rfl,rfl⟩,?_,?_⟩
  · cases created <;> simp [catalogChange]
  · cases created <;> rfl

theorem applySystemRecordTransaction_ok [Sha256] {m : SystemRecordMutation}
    (h : f.applySystemRecordTransaction transactionID committedAt m = .ok f') :
    ∃ tx root batch catalog, Updated f 1 tx root f' ∧ Appends (f.beginUpdate 1) f.root batch tx root ∧
      systemStep (openCatalog f.root.catalogRoot) m = .ok catalog ∧ batch.catalogRoot = some catalog ∧
      (∀ c ∈ batch.changes, c.operation = .catalog) ∧ root.collectionCount = f.root.collectionCount := by
  unfold File.applySystemRecordTransaction at h
  split_ifs at h
  obtain ⟨tx,root,hbuilt,hup⟩ := updateAdvance_ok h
  obtain ⟨catalog,hcatalog,hbuilt⟩ := bind_eq_ok.mp hbuilt
  obtain ⟨⟨tx1,log,oldest⟩,happend,hbuilt⟩ := bind_eq_ok.mp hbuilt
  cases hbuilt
  have htx : tx.sequence = (f.beginUpdate 1).sequence := by rw [appendCommitRetained_txn happend]
  exact ⟨tx,_,_,catalog,hup,⟨happend,htx,rfl,rfl⟩,hcatalog,rfl,by simp [catalogChange],rfl⟩

theorem applyReplicationNoop_ok (h : f.applyReplicationNoop transactionID committedAt = .ok f') :
    ∃ tx root batch, Updated f 1 tx root f' ∧ Appends (f.beginUpdate 1) f.root batch tx root ∧
      batch.catalogRoot = f.root.catalogRoot ∧ (∀ c ∈ batch.changes, c.operation = .catalog) ∧
      root.collectionCount = f.root.collectionCount := by
  unfold File.applyReplicationNoop at h
  split_ifs at h
  obtain ⟨tx,root,hbuilt,hup⟩ := updateAdvance_ok h
  obtain ⟨⟨tx1,log,oldest⟩,happend,hbuilt⟩ := bind_eq_ok.mp hbuilt
  cases hbuilt
  have htx : tx.sequence = (f.beginUpdate 1).sequence := by rw [appendCommitRetained_txn happend]
  exact ⟨tx,_,_,hup,⟨happend,htx,rfl,rfl⟩,rfl,by simp [catalogChange],rfl⟩

theorem createInitialDurableConsumer_ok [Sha256] {name : Bytes}
    (h : f.createInitialDurableConsumer name transactionID = .ok f') :
    ∃ tx root batch encoded catalog, f.root.commitSequence = 0 ∧ Updated f 1 tx root f' ∧
      Appends (f.beginUpdate 1) f.root batch tx root ∧ encodeDurableConsumerCheckpoints [⟨name,1⟩] = .ok encoded ∧
      storeDirectory f.root.catalogRoot encoded = .ok catalog ∧ batch.catalogRoot = some catalog ∧
      (∀ c ∈ batch.changes, c.operation = .catalog) ∧ root.collectionCount = f.root.collectionCount := by
  unfold File.createInitialDurableConsumer at h
  split_ifs at h with hguard
  simp only [Bool.or_eq_true,decide_eq_true_eq,not_or,not_not] at hguard
  obtain ⟨tx,root,hbuilt,hup⟩ := updateAdvance_ok h
  have hone : (f.beginUpdate 1).sequence = 1 := by simp [File.beginUpdate,hguard.2]
  obtain ⟨encoded,hencoded,hbuilt⟩ := bind_eq_ok.mp hbuilt
  obtain ⟨catalog,hcatalog,hbuilt⟩ := bind_eq_ok.mp hbuilt
  obtain ⟨⟨tx1,log,oldest⟩,happend,hbuilt⟩ := bind_eq_ok.mp hbuilt
  cases hbuilt
  have htx : tx.sequence = (f.beginUpdate 1).sequence := by rw [appendCommitRetained_txn happend]
  exact ⟨tx,_,_,encoded,catalog,hguard.2,hup,⟨happend,htx,rfl,rfl⟩,hone ▸ hencoded,hcatalog,rfl,
    by simp [catalogChange],rfl⟩

/-- The stages of explicit retention: a prefix goes, the marker comes, pruning follows. -/
structure Retained (tx : WriteTxn) (keepFrom : ℕ) (transactionID : Identifier) (committedAt : ℕ) (tx' : WriteTxn)
    (root : DatabaseRoot) (kept appended tree : CommitTree) (retained added oldest : ℕ) : Prop where
  sequence_pos : tx.baseRoot.commitSequence ≠ 0
  oldest_pos : tx.baseRoot.oldestRetainedSequence ≠ 0
  lower : tx.baseRoot.oldestRetainedSequence ≤ keepFrom
  upper : keepFrom ≤ tx.baseRoot.commitSequence+1
  pins : ∀ id pin, tx.file.readers.find id = some pin → pin.replay = true → keepFrom ≤ pin.sequence+1
  removed : removeCommits tx.baseRoot.oldestRetainedSequence (keepFrom - tx.baseRoot.oldestRetainedSequence)
    (openTree tx.baseRoot.commitLogRoot) tx.retainedCommitBytes = .ok (kept,retained)
  append : appendCommitToTree tx kept (retentionMarker tx keepFrom transactionID committedAt) = .ok (appended,added)
  bytes_le : retained+added ≤ maxUint64
  prune : pruneCommitTree { tx with retainedCommitBytes := retained+added } appended keepFrom tx.sequence =
    .ok (tx',tree,oldest)
  root_eq : root = { tx.baseRoot with
    commitSequence := tx'.sequence, commitLogRoot := some tree, oldestRetainedSequence := oldest
    indexBuildCatalogRoot := none }

theorem retainCommitsFrom_ok (h : f.retainCommitsFrom keepFrom transactionID committedAt = .ok f') :
    ∃ tx root kept appended tree retained added oldest, Updated f 1 tx root f' ∧
      Retained (f.beginUpdate 1) keepFrom transactionID committedAt tx root kept appended tree retained added oldest := by
  unfold File.retainCommitsFrom at h
  split_ifs at h
  obtain ⟨tx,root,hbuilt,hup⟩ := updateAdvance_ok h
  unfold retainFrom at hbuilt
  dsimp only at hbuilt
  split_ifs at hbuilt with hguard hpins
  simp only [Bool.or_eq_true,decide_eq_true_eq,not_or,not_lt] at hguard
  obtain ⟨⟨kept,retained⟩,hremoved,hbuilt⟩ := bind_eq_ok.mp hbuilt
  obtain ⟨⟨appended,added⟩,happend,hbuilt⟩ := bind_eq_ok.mp hbuilt
  dsimp only at hbuilt
  obtain ⟨hbytes,hbuilt⟩ := guard_eq_ok.mp hbuilt
  obtain ⟨⟨tx1,tree,oldest⟩,hprune,hbuilt⟩ := bind_eq_ok.mp hbuilt
  cases hbuilt
  refine ⟨tx1,_,kept,appended,tree,retained,added,oldest,hup,hguard.1.1.1,hguard.1.1.2,hguard.1.2,hguard.2,
    ?_,hremoved,happend,not_lt.mp hbytes,hprune,rfl⟩
  intro id pin hpin hreplay
  by_contra hlt
  refine hpins (List.any_eq_true.mpr ⟨(id,pin),SortedMap.mem_entries.mpr hpin,?_⟩)
  simp only [hreplay,Bool.true_and,decide_eq_true_eq]
  omega

/-! ### Maintenance at an unchanged sequence -/

theorem replaceDurableConsumerCheckpoints_ok [Sha256] (h : f.replaceDurableConsumerCheckpoints cs = .ok f') :
    ∃ encoded catalog, encodeDurableConsumerCheckpoints cs = .ok encoded ∧
      storeDirectory f.root.catalogRoot encoded = .ok catalog ∧
      Updated f 0 (f.beginUpdate 0) { f.root with catalogRoot := some catalog } f' := by
  unfold File.replaceDurableConsumerCheckpoints at h
  obtain ⟨encoded,hencoded,h⟩ := bind_eq_ok.mp h
  obtain ⟨tx,root,hbuilt,hup⟩ := updateAdvance_ok h
  obtain ⟨catalog,hcatalog,hbuilt⟩ := bind_eq_ok.mp hbuilt
  cases hbuilt
  exact ⟨encoded,catalog,hencoded,hcatalog,hup⟩

theorem encodeIndexBuildMeta_ok (h : encodeIndexBuildMeta m = .ok stored) :
    validIndexBuildMeta m = true ∧ ∃ fields, normalizeIndexFields m.fieldPath m.fields = some fields ∧
      stored = m.stored fields := by
  unfold encodeIndexBuildMeta at h
  cases hfields : normalizeIndexFields m.fieldPath m.fields with
  | none =>
    rw [hfields] at h
    cases h
  | some fields =>
    rw [hfields] at h
    dsimp only at h
    split_ifs at h with hguard
    cases h
    simp only [Bool.or_eq_true,not_or] at hguard
    exact ⟨by simpa using hguard.1.1.1,fields,rfl,rfl⟩

/-- A changed build record is published and nothing else. -/
structure BuildPut (tx : WriteTxn) (build stored : IndexBuildMeta) (tx' : WriteTxn) (root : DatabaseRoot) : Prop where
  encoded : encodeIndexBuildMeta build = .ok stored
  txn : tx' = { tx with indexBuildCatalogChanged := true }
  root_eq : root = { tx.baseRoot with
    indexBuildCatalogRoot := some ((openTree tx.baseRoot.indexBuildCatalogRoot).insert build.buildID stored) }

theorem putBuild_ok (h : putBuild tx build = .ok (tx',root)) : ∃ stored, BuildPut tx build stored tx' root := by
  unfold putBuild at h
  obtain ⟨stored,hstored,h⟩ := bind_eq_ok.mp h
  cases h
  obtain ⟨-,fields,-,heq⟩ := encodeIndexBuildMeta_ok hstored
  refine ⟨stored,hstored,rfl,?_⟩
  rw [heq]
  rfl

theorem findBuild_ok (h : findBuild base buildID = .ok build) :
    ∃ record, (openTree base.indexBuildCatalogRoot).find buildID = some record ∧
      build = { record with buildID := buildID } := by
  unfold findBuild at h
  split at h
  · cases h
  rename_i record hrecord
  cases h
  exact ⟨record,hrecord,rfl⟩

theorem beginIndexBuild_ok (h : f.beginIndexBuild t = .ok f') :
    ∃ tx0 tx root fields collection stored, Updated f 0 tx root f' ∧
      normalizeIndexFields t.fieldPath t.fields = some fields ∧
      (openCatalog f.root.catalogRoot).collections.find t.collection = some collection ∧
      tx0 = { f.beginUpdate 0 with requiredFeatures := tx0.requiredFeatures } ∧
      BuildPut tx0 (newBuild t f.root f.root.commitSequence collection.id fields) stored tx root := by
  unfold File.beginIndexBuild at h
  split at h
  · cases h
  rename_i fields hfields
  split_ifs at h
  obtain ⟨tx,root,hbuilt,hup⟩ := updateAdvance_ok h
  unfold beginBuild at hbuilt
  obtain ⟨-,hbuilt⟩ := guard_eq_ok.mp hbuilt
  dsimp only at hbuilt
  split at hbuilt
  · cases hbuilt
  rename_i collection hcollection
  obtain ⟨-,hbuilt⟩ := guard_eq_ok.mp hbuilt
  obtain ⟨-,hbuilt⟩ := guard_eq_ok.mp hbuilt
  obtain ⟨-,hbuilt⟩ := guard_eq_ok.mp hbuilt
  obtain ⟨-,hbuilt⟩ := guard_eq_ok.mp hbuilt
  obtain ⟨stored,hput⟩ := putBuild_ok hbuilt
  exact ⟨_,tx,root,fields,collection,stored,hup,hfields,hcollection,rfl,hput⟩

theorem failIndexBuild_ok {failure : IndexBuildFailure}
    (h : f.failIndexBuild buildID failure updatedAt = .ok f') :
    ∃ tx root build stored, Updated f 0 tx root f' ∧ findBuild f.root buildID = .ok build ∧
      BuildPut (f.beginUpdate 0) { build with phase := .failed, failure := failure, updatedAt := updatedAt }
        stored tx root := by
  unfold File.failIndexBuild at h
  split_ifs at h
  obtain ⟨tx,root,hbuilt,hup⟩ := updateAdvance_ok h
  obtain ⟨build,hbuild,hbuilt⟩ := bind_eq_ok.mp hbuilt
  split_ifs at hbuilt
  obtain ⟨stored,hput⟩ := putBuild_ok hbuilt
  exact ⟨tx,root,build,stored,hup,hbuild,hput⟩

theorem abortIndexBuild_ok (h : f.abortIndexBuild buildID = .ok f') :
    Updated f 0 { f.beginUpdate 0 with indexBuildCatalogChanged := true }
      { f.root with indexBuildCatalogRoot := withoutBuild f.root.indexBuildCatalogRoot buildID } f' := by
  unfold File.abortIndexBuild at h
  split_ifs at h
  obtain ⟨tx,root,hbuilt,hup⟩ := updateAdvance_ok h
  obtain ⟨build,-,hbuilt⟩ := bind_eq_ok.mp hbuilt
  cases hbuilt
  exact hup

structure Scanned (f : File) (batch : IndexBuildScanBatch) (build : IndexBuildMeta) (collection : CollectionMeta)
    (work : ScanWork) : Prop where
  build_eq : findBuild f.root batch.buildID = .ok build
  allowed : scanBatchAllowed build batch = true
  source : sourceCollection build = .ok collection
  entries : batch.entries.foldlM
    (scanEntry (openTree collection.primaryRoot) (openTree collection.orderRoot) batch.scanAfter)
    ⟨openTree build.shadowRoot,build.scanAfter,0⟩ = .ok work

theorem applyIndexBuildScanBatch_ok (h : f.applyIndexBuildScanBatch batch = .ok f') :
    ∃ tx root build collection work stored, Updated f 0 tx root f' ∧ Scanned f batch build collection work ∧
      BuildPut (f.beginUpdate 0) (build.afterScan batch work f.root.commitSequence) stored tx root := by
  unfold File.applyIndexBuildScanBatch at h
  split_ifs at h
  obtain ⟨tx,root,hbuilt,hup⟩ := updateAdvance_ok h
  unfold applyScanBatch at hbuilt
  split_ifs at hbuilt
  obtain ⟨build,hbuild,hbuilt⟩ := bind_eq_ok.mp hbuilt
  split_ifs at hbuilt with hallowed
  obtain ⟨collection,hcollection,hbuilt⟩ := bind_eq_ok.mp hbuilt
  obtain ⟨work,hwork,hbuilt⟩ := bind_eq_ok.mp hbuilt
  split_ifs at hbuilt
  obtain ⟨stored,hput⟩ := putBuild_ok hbuilt
  exact ⟨tx,root,build,collection,work,stored,hup,⟨hbuild,by simpa using hallowed,hcollection,hwork⟩,hput⟩

structure CaughtUp (f : File) (batch : IndexBuildCatchUpBatch) (build : IndexBuildMeta) (work : CatchUpWork)
    (through : Option Catalog) : Prop where
  build_eq : findBuild f.root batch.buildID = .ok build
  allowed : catchUpAllowed build batch f.root.commitSequence = true
  commits : catchUpCommits (openTree f.root.commitLogRoot) f.root.oldestRetainedSequence build.collectionID
    (build.appliedSequence+1) (batch.throughSequence - build.appliedSequence)
    ⟨openTree build.shadowRoot,build.entryCount,build.canonicalBytes,batch.mutations⟩ none = .ok (work,through)
  used : work.mutations = []

theorem applyIndexBuildCatchUpBatch_ok (h : f.applyIndexBuildCatchUpBatch batch = .ok f') :
    ∃ tx0 tx root build work through stored, Updated f 0 tx root f' ∧ CaughtUp f batch build work through ∧
      tx0 = { f.beginUpdate 0 with requiredFeatures := tx0.requiredFeatures } ∧
      BuildPut tx0 (build.afterCatchUp batch work through f.root.commitSequence) stored tx root := by
  unfold File.applyIndexBuildCatchUpBatch at h
  split_ifs at h
  obtain ⟨tx,root,hbuilt,hup⟩ := updateAdvance_ok h
  unfold applyCatchUpBatch at hbuilt
  dsimp only at hbuilt
  obtain ⟨build,hbuild,hbuilt⟩ := bind_eq_ok.mp hbuilt
  split_ifs at hbuilt with hallowed hlost
  obtain ⟨⟨work,through⟩,hcommits,hbuilt⟩ := bind_eq_ok.mp hbuilt
  dsimp only at hbuilt
  split_ifs at hbuilt with hused
  obtain ⟨stored,hput⟩ := putBuild_ok hbuilt
  refine ⟨_,tx,root,build,work,through,stored,hup,⟨hbuild,?_,hcommits,?_⟩,rfl,hput⟩
  · exact Bool.of_not_eq_false (fun hfalse => hallowed (by rw [Bool.not_eq_true']; exact hfalse))
  · simpa using hused

structure Finalized (tx : WriteTxn) (t : FinalizeIndexBuildTransaction) (tx' : WriteTxn) (root : DatabaseRoot)
    (build : IndexBuildMeta) (collection : CollectionMeta) (definition : IndexMeta) (header : CollectionMeta)
    (changes : List CommitChange) : Prop where
  build_eq : findBuild tx.baseRoot t.buildID = .ok build
  ready : build.phase = .ready
  current : build.appliedSequence = tx.baseRoot.commitSequence
  counted : (openTree build.shadowRoot).size = build.entryCount
  unique : checkUniqueShadow build = .ok ()
  collection_eq : (openCatalog tx.baseRoot.catalogRoot).collections.find build.collection = some collection
  id_eq : collection.id = build.collectionID
  definition_eq : encodeIndexMeta {
    name := build.name, fieldPath := build.fieldPath, fields := build.fields, unique := build.unique
    root := build.shadowRoot, entryCount := build.entryCount
    createdSequence :=
      (((openTree collection.indexCatalogRoot).find build.name).map IndexMeta.createdSequence).getD tx.sequence
    updatedSequence := tx.sequence, keyCodecVersion := 0 } = .ok definition
  header_eq : encodeCollectionMeta { collection with
    indexCatalogRoot := some ((openTree collection.indexCatalogRoot).insert build.name definition)
    updatedSequence := tx.sequence } = .ok header
  appends : Appends { tx with indexBuildCatalogChanged := true } tx.baseRoot
    ⟨tx.sequence,t.transactionID,t.committedAt,some { openCatalog tx.baseRoot.catalogRoot with
      collections := (openCatalog tx.baseRoot.catalogRoot).collections.insert build.collection header },changes⟩ tx' root
  catalogOnly : ∀ c ∈ changes, c.operation = .catalog
  collections : root.collectionCount = tx.baseRoot.collectionCount
  builds : root.indexBuildCatalogRoot = withoutBuild tx.baseRoot.indexBuildCatalogRoot t.buildID

theorem finalizeIndexBuild_ok {t : FinalizeIndexBuildTransaction} (h : f.finalizeIndexBuild t = .ok f') :
    ∃ tx root build collection definition header changes, Updated f 1 tx root f' ∧
      Finalized (f.beginUpdate 1) t tx root build collection definition header changes := by
  unfold File.finalizeIndexBuild at h
  split_ifs at h
  obtain ⟨tx,root,hbuilt,hup⟩ := updateAdvance_ok h
  unfold finalizeBuild at hbuilt
  dsimp only at hbuilt
  obtain ⟨build,hbuild,hbuilt⟩ := bind_eq_ok.mp hbuilt
  obtain ⟨hstate,hbuilt⟩ := guard_eq_ok.mp hbuilt
  obtain ⟨hcount,hbuilt⟩ := guard_eq_ok.mp hbuilt
  simp only [Bool.or_eq_true,decide_eq_true_eq,not_or,not_not] at hstate
  obtain ⟨_,hunique,hbuilt⟩ := bind_eq_ok.mp hbuilt
  split at hbuilt
  · cases hbuilt
  rename_i collection hcollection
  obtain ⟨hid,hbuilt⟩ := guard_eq_ok.mp hbuilt
  obtain ⟨-,hbuilt⟩ := guard_eq_ok.mp hbuilt
  obtain ⟨definition,hdefinition,hbuilt⟩ := bind_eq_ok.mp hbuilt
  obtain ⟨header,hheader,hbuilt⟩ := bind_eq_ok.mp hbuilt
  obtain ⟨⟨tx1,log,oldest⟩,happend,hbuilt⟩ := bind_eq_ok.mp hbuilt
  cases hbuilt
  have htx : tx1.sequence = (f.beginUpdate 1).sequence := by rw [appendCommitRetained_txn happend]
  exact ⟨tx1,_,build,collection,definition,header,_,hup,hbuild,hstate.1.1,hstate.2,not_not.mp hcount,hunique,
    hcollection,not_not.mp hid,hdefinition,hheader,⟨happend,htx,rfl,rfl⟩,by simp [catalogChange],rfl,rfl⟩

/-! ### Whole transactions -/

theorem applyDocumentTransaction_ok [Sha256] (h : f.applyDocumentTransaction t records = .ok f') :
    ∃ tx root work states published catalog changes, Updated f 1 tx root f' ∧
      (records.map SystemRecordMutation.key).Nodup ∧
      DocumentsApplied (f.beginUpdate 1) f.root t records tx root work states published catalog changes := by
  unfold File.applyDocumentTransaction at h
  obtain ⟨hguard,h⟩ := guard_eq_ok.mp h
  obtain ⟨tx,root,hbuilt,hup⟩ := updateAdvance_ok h
  obtain ⟨work,states,published,catalog,changes,hd⟩ := applyDocuments_ok hbuilt
  simp only [Bool.or_eq_true,not_or,Bool.not_eq_true',decide_eq_false_iff_not,not_not] at hguard
  exact ⟨tx,root,work,states,published,catalog,changes,hup,hguard.1.2,hd⟩

theorem applyCreateIndex_ok (h : f.applyCreateIndex t = .ok f') :
    ∃ tx root fields entries collection created resolved tree definition header changes, Updated f 1 tx root f' ∧
      normalizeIndexFields t.fieldPath t.fields = some fields ∧ normalizeIndexEntries t.entries t.unique = .ok entries ∧
      IndexCreated (f.beginUpdate 1) t fields entries tx root collection created resolved tree definition header
        changes := by
  unfold File.applyCreateIndex at h
  split at h
  · cases h
  rename_i fields hfields
  obtain ⟨-,h⟩ := guard_eq_ok.mp h
  obtain ⟨entries,hentries,h⟩ := bind_eq_ok.mp h
  obtain ⟨tx,root,hbuilt,hup⟩ := updateAdvance_ok h
  obtain ⟨collection,created,resolved,tree,definition,header,changes,hc⟩ := createIndex_ok hbuilt
  exact ⟨tx,root,fields,entries,collection,created,resolved,tree,definition,header,changes,hup,hfields,
    hentries,hc⟩

/-! ### What one commit writes -/

/-- The writers of commits: `batch` takes the catalog of `base` to that of `root`. -/
inductive Writes [Sha256] (base : DatabaseRoot) : CommitBatch → DatabaseRoot → Prop
  | documents {tx tx' : WriteTxn} {root : DatabaseRoot} {t : DocumentTransaction} {records : List SystemRecordMutation}
      {work : DocumentWork} {states : WriteStates} {published catalog : Catalog} {changes : List CommitChange}
      (sequence : tx.sequence = base.commitSequence+1) (nodup : (records.map SystemRecordMutation.key).Nodup)
      (applied : DocumentsApplied tx base t records tx' root work states published catalog changes) :
      Writes base ⟨tx.sequence,t.transactionID,t.committedAt,some catalog,
        changes ++ work.pending.map (withAfterRef states)⟩ root
  | collection {root : DatabaseRoot} {batch : CommitBatch} {name : Bytes}
      (new : (openCatalog base.catalogRoot).collections.find name = none)
      (catalog : batch.catalogRoot = some { openCatalog base.catalogRoot with
        collections := (openCatalog base.catalogRoot).collections.insert name
          (emptyCollection (base.collectionCount+1) (base.commitSequence+1)) })
      (changes : ∀ c ∈ batch.changes, c.operation = .catalog)
      (count : root.collectionCount = base.collectionCount+1) : Writes base batch root
  | index {tx tx' : WriteTxn} {root : DatabaseRoot} {t : CreateIndexTransaction} {fields : List IndexField}
      {entries : List IndexEntry} {collection : CollectionMeta} {created : Bool} {resolved : List IndexEntry}
      {tree : SecondaryTree} {definition : IndexMeta} {header : CollectionMeta} {changes : List CommitChange}
      (sequence : tx.sequence = base.commitSequence+1) (start : tx.baseRoot = base)
      (normalized : normalizeIndexEntries t.entries t.unique = .ok entries)
      (applied : IndexCreated tx t fields entries tx' root collection created resolved tree definition header changes) :
      Writes base ⟨tx.sequence,t.transactionID,t.committedAt,some { openCatalog base.catalogRoot with
        collections := (openCatalog base.catalogRoot).collections.insert t.collection header },changes⟩ root
  | build {tx tx' : WriteTxn} {root : DatabaseRoot} {t : FinalizeIndexBuildTransaction} {build : IndexBuildMeta}
      {collection : CollectionMeta} {definition : IndexMeta} {header : CollectionMeta} {changes : List CommitChange}
      (sequence : tx.sequence = base.commitSequence+1) (start : tx.baseRoot = base)
      (applied : Finalized tx t tx' root build collection definition header changes) :
      Writes base ⟨tx.sequence,t.transactionID,t.committedAt,some { openCatalog base.catalogRoot with
        collections := (openCatalog base.catalogRoot).collections.insert build.collection header },changes⟩ root
  /-- System records, markers and the first consumer leave the collections alone. -/
  | quiet {root : DatabaseRoot} {batch : CommitBatch}
      (collections : (openCatalog batch.catalogRoot).collections = (openCatalog base.catalogRoot).collections)
      (changes : ∀ c ∈ batch.changes, c.operation = .catalog)
      (count : root.collectionCount = base.collectionCount) : Writes base batch root

theorem storeDirectory_collections [Sha256] {root : Option Catalog}
    (h : storeDirectory root encoded = .ok catalog) : catalog.collections = (openCatalog root).collections :=
  (applySystemRecordMutation_applied (storeDirectory_ok h)).1

end Meldbase.Logical
