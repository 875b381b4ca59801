import Meldbase.Logical.IndexBuilds

/-! # Reader pins, streams and retention

Opening and advancing the readers of a file, explicit retention, and opening the
file itself.  A pin of a replay reader holds the sequence it has read up to.  The
pin counter never reaches its 64-bit end.
-/
namespace Meldbase.Logical

/-! ### Pins and snapshots -/

variable (f : File)

def File.addReaderPin (sequence : ℕ) (replay : Bool) : Except StorageError (File × ℕ) :=
  if f.nextPin = maxUint64 then .error .corrupt
  else .ok ({ f with
    nextPin := f.nextPin+1
    readers := f.readers.insert (f.nextPin+1) ⟨sequence,replay⟩ },f.nextPin+1)
def File.dropReaderPin (pinID : ℕ) : File := { f with readers := f.readers.erase pinID }

/-- Whether replay can resume after a commit; streams and cursors make the same test. -/
def retainedConsumerPosition (root : DatabaseRoot) (after : ℕ) : Except StorageError Unit :=
  if root.commitSequence < after then .error .corrupt
  else if after < root.commitSequence && (after = maxUint64 || after+1 < root.oldestRetainedSequence) then
    .error .historyLost
  else .ok ()
def historicalRoot (current : DatabaseRoot) (sequence : ℕ) : Except StorageError DatabaseRoot :=
  if current.commitSequence < sequence then .error .corrupt
  else if sequence = current.commitSequence then .ok current
  else if sequence = 0 then
    if 1 < current.oldestRetainedSequence then .error .historyLost else .ok DatabaseRoot.empty
  else if current.oldestRetainedSequence = 0 || sequence < current.oldestRetainedSequence then .error .historyLost
  else do
    let batch ← readCommit (openTree current.commitLogRoot) sequence
    .ok { DatabaseRoot.empty with
      commitSequence := sequence, catalogRoot := batch.catalogRoot
      oldestRetainedSequence := current.oldestRetainedSequence }

structure LiveCommitStream where
  (after deliveredSequence : ℕ)

def File.openSnapshot : Except StorageError (File × ℕ) := f.addReaderPin f.root.commitSequence false
def File.openSnapshotAndStreamAt (sequence : ℕ) :
    Except StorageError (File × ℕ × ℕ × DatabaseRoot × LiveCommitStream) := do
  let historical ← historicalRoot f.root sequence
  let (f,snapshotPin) ← f.addReaderPin sequence false
  let (f,streamPin) ← f.addReaderPin sequence true
  .ok (f,snapshotPin,streamPin,historical,⟨sequence,0⟩)
def File.openLiveCommitStream (after : ℕ) : Except StorageError (File × ℕ × LiveCommitStream) := do
  retainedConsumerPosition f.root after
  let (f,pinID) ← f.addReaderPin after true
  .ok (f,pinID,⟨after,0⟩)
def File.openCommitCursor (after : ℕ) : Except StorageError (File × ℕ) := do
  retainedConsumerPosition f.root after
  f.addReaderPin f.root.commitSequence false

/-- `LiveCommitStream.Next`; `none` when the stream has to wait for a publication. -/
def File.streamNext (pinID : ℕ) (stream : LiveCommitStream) :
    Except StorageError (Option (File × LiveCommitStream × CommitBatch)) :=
  if stream.after < f.root.commitSequence &&
      (stream.after = maxUint64 || stream.after+1 < f.root.oldestRetainedSequence) then .error .historyLost
  else if stream.after < f.root.commitSequence then do
    let batch ← readCommit (openTree f.root.commitLogRoot) (stream.after+1)
    match f.readers.find pinID with
    | none => .error .corrupt
    | some pin => .ok (some ({ f with
        readers := f.readers.insert pinID { pin with sequence := stream.after+1 } },
        ⟨stream.after+1,stream.after+1⟩,batch))
  else .ok none

/-- `OpenIndexBuildScanIterator` without the iterator itself. -/
def File.openIndexBuildScan (buildID : Identifier) : Except StorageError (File × ℕ × IndexBuildMeta) :=
  if buildID.isZero then .error .corrupt
  else do
    let build ← findBuild f.root buildID
    if build.phase ≠ .scan then .error .buildState
    else do
      let _ ← sourceCollection build
      let (f,pinID) ← f.addReaderPin f.root.commitSequence false
      .ok (f,pinID,build)
def File.openIndexBuildCatchUpSnapshot (buildID : Identifier) :
    Except StorageError (File × ℕ × IndexBuildMeta) :=
  if buildID.isZero then .error .corrupt
  else do
    let build ← findBuild f.root buildID
    if build.phase ≠ .catchUp && build.phase ≠ .ready then .error .buildState
    else if f.root.commitSequence < build.appliedSequence ||
        (build.appliedSequence < f.root.commitSequence && (f.root.oldestRetainedSequence = 0 ||
          build.appliedSequence+1 < f.root.oldestRetainedSequence)) then .error .buildHistoryLost
    else do
      let (f,pinID) ← f.addReaderPin f.root.commitSequence false
      .ok (f,pinID,build)

/-! ### Explicit retention -/

def removeCommits : ℕ → ℕ → CommitTree → ℕ → Except StorageError (CommitTree × ℕ)
  | _, 0, tree, retained => .ok (tree,retained)
  | sequence, n+1, tree, retained => do
    let (tree,retained) ← removeCommit tree retained sequence
    removeCommits (sequence+1) n tree retained

/-- The bytes of `"_system.retention"`. -/
def retentionPath : Bytes := [95,115,121,115,116,101,109,46,114,101,116,101,110,116,105,111,110]
def retentionMarker (tx : WriteTxn) (keepFrom : ℕ) (transactionID : Identifier) (committedAt : ℕ) : CommitBatch where
  sequence := tx.sequence
  transactionID := transactionID
  committedAt := committedAt
  catalogRoot := tx.baseRoot.catalogRoot
  changes := [catalogChange systemCollectionID [] retentionPath .none (.retention keepFrom)]
def retainFrom (tx : WriteTxn) (keepFrom : ℕ) (transactionID : Identifier) (committedAt : ℕ) :
    Except StorageError (WriteTxn × DatabaseRoot) :=
  let base := tx.baseRoot
  if base.commitSequence = 0 || base.oldestRetainedSequence = 0 || keepFrom < base.oldestRetainedSequence ||
      base.commitSequence+1 < keepFrom then .error .corrupt
  else if tx.file.readers.entries.any (fun e => e.2.replay && e.2.sequence+1 < keepFrom) then .error .historyPinned
  else do
    let (tree,retained) ← removeCommits base.oldestRetainedSequence (keepFrom - base.oldestRetainedSequence)
      (openTree base.commitLogRoot) tx.retainedCommitBytes
    let (tree,added) ← appendCommitToTree tx tree (retentionMarker tx keepFrom transactionID committedAt)
    if maxUint64 < retained+added then .error .corrupt
    else do
      let (tx,tree,keepFrom) ← pruneCommitTree { tx with retainedCommitBytes := retained+added } tree keepFrom tx.sequence
      .ok (tx,{ base with
        commitSequence := tx.sequence, commitLogRoot := some tree, oldestRetainedSequence := keepFrom
        indexBuildCatalogRoot := none })
def File.retainCommitsFrom (keepFrom : ℕ) (transactionID : Identifier) (committedAt : ℕ) :
    Except StorageError File :=
  if transactionID.isZero then .error .corrupt
  else f.updateAdvance 1 (fun tx => retainFrom tx keepFrom transactionID committedAt)

/-! ### Opening the file -/

def storedCommitLogicalBytes : CommitValue → ℕ
  | .header _ => commitHeaderBytes
  | .change c => encodedChangeBytes c
def calculateRetainedCommitBytes (tree : CommitTree) : Except StorageError ℕ :=
  (tree.entries.map Prod.snd).foldlM (fun total value =>
    if maxUint64 < total+storedCommitLogicalBytes value then .error .corrupt
    else .ok (total+storedCommitLogicalBytes value)) 0
def normalizedCommitRetention (value : ℕ) : ℕ := if value = 0 then defaultCommitRetentionMaxCommits else value
def normalizedCommitRetentionBytes (value : ℕ) : ℕ := if value = 0 then defaultCommitRetentionMaxBytes else value
def File.create (maxCommits maxBytes : ℕ) : File where
  root := DatabaseRoot.empty
  requiredFeatures := ⟨false,false,false⟩
  readers := ∅
  nextPin := 0
  commitRetentionMax := normalizedCommitRetention maxCommits
  commitRetentionMaxBytes := normalizedCommitRetentionBytes maxBytes
  retainedCommitBytes := 0

/-- Opening an existing file: the root survives, the readers do not. -/
def File.reopen (maxCommits maxBytes : ℕ) : Except StorageError File := do
  let retained ← calculateRetainedCommitBytes (openTree f.root.commitLogRoot)
  .ok { File.create maxCommits maxBytes with
    root := f.root, requiredFeatures := f.requiredFeatures, retainedCommitBytes := retained }

end Meldbase.Logical
