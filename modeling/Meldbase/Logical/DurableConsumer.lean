import Meldbase.Logical.Live

/-! # Durable commit consumers

A named consumer reads through a stream of its own and saves what it has
acknowledged in the checkpoint directory.  Saving changes neither the logical
sequence nor the commit log.
-/
namespace Meldbase.Logical
variable [Sha256]

structure DurableCommitConsumer where
  name : Bytes
  stream : LiveCommitStream
  (checkpoint delivered : ℕ)

def directoryMutation (encoded : Bytes) : SystemRecordMutation :=
  ⟨durableConsumerKey,false,none,encoded,false,true⟩
def storeDirectory (catalogRoot : Option Catalog) (encoded : Bytes) : Except StorageError Catalog := do
  match ← applySystemRecordMutation (openCatalog catalogRoot) (directoryMutation encoded) with
  | .mismatch _ => .error .corrupt
  | .applied catalog => .ok catalog

variable (f : File)

def File.replaceDurableConsumerCheckpoints (cs : List Checkpoint) : Except StorageError File := do
  let encoded ← encodeDurableConsumerCheckpoints cs
  f.updateAdvance 0 (fun tx => do
    let catalog ← storeDirectory tx.baseRoot.catalogRoot encoded
    .ok (tx,{ tx.baseRoot with catalogRoot := some catalog }))

/-- The bytes of `"_system.durable_consumers"`. -/
def durableConsumersPath : Bytes :=
  [95,115,121,115,116,101,109,46,100,117,114,97,98,108,101,95,99,111,110,115,117,109,101,114,115]

variable (name : Bytes)

/-- An empty file cannot host the directory at sequence 0, so the first consumer
makes one private commit and starts behind it. -/
def File.createInitialDurableConsumer (transactionID : Identifier) : Except StorageError File :=
  if !validDurableConsumerName name || f.root.commitSequence ≠ 0 then .error .corrupt
  else f.updateAdvance 1 (fun tx => do
    let base := tx.baseRoot
    let encoded ← encodeDurableConsumerCheckpoints [⟨name,tx.sequence⟩]
    let catalog ← storeDirectory base.catalogRoot encoded
    let (tx,commitLogRoot,oldest) ← appendCommitRetained tx base.commitLogRoot base.oldestRetainedSequence {
      sequence := tx.sequence, transactionID := transactionID, committedAt := 0, catalogRoot := some catalog
      changes := [catalogChange systemCollectionID [] durableConsumersPath .none .none] }
    .ok (tx,{ base with
      commitSequence := tx.sequence, catalogRoot := some catalog, commitLogRoot := commitLogRoot
      oldestRetainedSequence := oldest }))
def File.createDurableCommitConsumer (after : ℕ) (transactionID : Identifier) :
    Except StorageError (File × ℕ) :=
  if !validDurableConsumerName name then .error .corrupt
  else do
    retainedConsumerPosition f.root after
    let checkpoints ← durableConsumerCheckpoints f.root.catalogRoot
    if (findDurableConsumer checkpoints name).isSome then .error .consumerExists
    else if maxDurableCommitConsumers ≤ checkpoints.length then .error .corrupt
    else if f.root.commitSequence = 0 then do
      let f ← f.createInitialDurableConsumer name transactionID
      .ok (f,1)
    else do
      let f ← f.replaceDurableConsumerCheckpoints (checkpoints ++ [⟨name,after⟩])
      .ok (f,after)

/-- The checkpoint `OpenDurableCommitConsumer` resumes from. -/
def File.durableConsumerPosition : Except StorageError ℕ :=
  if !validDurableConsumerName name then .error .corrupt
  else do
    let checkpoints ← durableConsumerCheckpoints f.root.catalogRoot
    match findDurableConsumer checkpoints name with
    | none => .error .consumerNotFound
    | some c => do
      retainedConsumerPosition f.root c.ack
      .ok c.ack

/-- `openDurableCommitConsumerUnlocked`. -/
def File.openDurableCommitConsumer (after : ℕ) : Except StorageError (File × ℕ × DurableCommitConsumer) := do
  let (f,pinID) ← f.addReaderPin after true
  .ok (f,pinID,⟨name,⟨after,0⟩,after,after⟩)

/-- `Next` delivers through the consumer's stream and leaves the checkpoint alone. -/
def File.consumerNext (pinID : ℕ) (consumer : DurableCommitConsumer) :
    Except StorageError (Option (File × DurableCommitConsumer × CommitBatch)) := do
  match ← f.streamNext pinID consumer.stream with
  | none => .ok none
  | some (f,stream,batch) =>
    if batch.sequence ≤ consumer.delivered then .error .corrupt
    else .ok (some (f,{ consumer with stream := stream, delivered := batch.sequence },batch))
def withAck (cs : List Checkpoint) (name : Bytes) (sequence : ℕ) : List Checkpoint :=
  cs.map (fun c => if c.name = name then { c with ack := sequence } else c)

/-- `Ack` never moves a saved checkpoint backward. -/
def File.ackDurableConsumer (consumer : DurableCommitConsumer) (sequence : ℕ) :
    Except StorageError (File × DurableCommitConsumer) :=
  if sequence < consumer.checkpoint || consumer.delivered < sequence then .error .corrupt
  else do
    let checkpoints ← durableConsumerCheckpoints f.root.catalogRoot
    match findDurableConsumer checkpoints consumer.name with
    | none => .error .consumerNotFound
    | some c =>
      if sequence ≤ c.ack then .ok (f,{ consumer with checkpoint := c.ack })
      else do
        let f ← f.replaceDurableConsumerCheckpoints (withAck checkpoints consumer.name sequence)
        .ok (f,{ consumer with checkpoint := sequence })
def File.deleteDurableCommitConsumer : Except StorageError File :=
  if !validDurableConsumerName name then .error .corrupt
  else do
    let checkpoints ← durableConsumerCheckpoints f.root.catalogRoot
    match findDurableConsumer checkpoints name with
    | none => .error .consumerNotFound
    | some _ => f.replaceDurableConsumerCheckpoints (checkpoints.filter (fun c => c.name ≠ name))

end Meldbase.Logical
