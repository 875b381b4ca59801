import Meldbase.Logical.Publication

/-! # Sessions over one file

The open handles of a file and every operation on it as one transition function.
A run may close and reopen the file at any point; a crash inside a publication is
a run in which that publication did or did not happen, followed by a reopening.
-/
namespace Meldbase.Logical
variable [Sha256]

/-- The publications a caller can ask for directly; the checkpoint directory is
written through the consumer operations. -/
def Publication.exported : Publication → Bool
  | .replaceCheckpoints _ => false
  | .initialConsumer _ _ => false
  | _ => true

/-- Handles are named by their pins.  Iterators and cursors are pins without a handle. -/
structure Session where
  file : File
  snapshots : SortedMap ℕ DatabaseRoot
  streams : SortedMap ℕ LiveCommitStream
  consumers : SortedMap ℕ DurableCommitConsumer

def Session.start (f : File) : Session := ⟨f,∅,∅,∅⟩

inductive Operation where
  | publish (p : {p : Publication // p.exported = true})
  | openSnapshot
  | openSnapshotAndStream
  | openSnapshotAndStreamAt (sequence : ℕ)
  | openStream (after : ℕ)
  | openCursor (after : ℕ)
  | openIterator (snapshot : ℕ)
  | openIndexBuildScan (buildID : Identifier)
  | openIndexBuildCatchUp (buildID : Identifier)
  | streamNext (pinID : ℕ)
  | createConsumer (name : Bytes) (after : ℕ) (transactionID : Identifier)
  | openConsumer (name : Bytes)
  | consumerNext (pinID : ℕ)
  | ack (pinID sequence : ℕ)
  | deleteConsumer (name : Bytes)
  | close (pinID : ℕ)
  | reopen (maxCommits maxBytes : ℕ)

inductive Answer where
  | done
  | pin (pinID : ℕ)
  | batch (b : CommitBatch)
  | waiting
  /-- an error after the file was published -/
  | failed (e : StorageError)

variable (s : Session)

def Session.withConsumer (opened : File × ℕ × DurableCommitConsumer) : Session :=
  { s with file := opened.1, consumers := s.consumers.insert opened.2.1 opened.2.2 }
def Session.openAt (sequence : ℕ) : Except StorageError (Session × Answer) := do
  let (f,snapshotPin,streamPin,historical,stream) ← s.file.openSnapshotAndStreamAt sequence
  .ok ({ s with
    file := f
    snapshots := s.snapshots.insert snapshotPin historical
    streams := s.streams.insert streamPin stream },.pin streamPin)
def Session.streamNext (s : Session) (pinID : ℕ) : Except StorageError (Session × Answer) :=
  match s.streams.find pinID with
  | none => .error .cursorClosed
  | some stream => do
    match ← s.file.streamNext pinID stream with
    | none => .ok (s,.waiting)
    | some (f,stream,batch) => .ok ({ s with file := f, streams := s.streams.insert pinID stream },.batch batch)
def Session.consumerNext (s : Session) (pinID : ℕ) : Except StorageError (Session × Answer) :=
  match s.consumers.find pinID with
  | none => .error .cursorClosed
  | some consumer => do
    match ← s.file.consumerNext pinID consumer with
    | none => .ok (s,.waiting)
    | some (f,consumer,batch) =>
      .ok ({ s with file := f, consumers := s.consumers.insert pinID consumer },.batch batch)
def Session.ack (pinID sequence : ℕ) : Except StorageError (Session × Answer) :=
  match s.consumers.find pinID with
  | none => .error .cursorClosed
  | some consumer => do
    let (f,consumer) ← s.file.ackDurableConsumer consumer sequence
    .ok ({ s with file := f, consumers := s.consumers.insert pinID consumer },.done)

/-- The checkpoint is saved before the handle is opened. -/
def Session.createConsumer (name : Bytes) (after : ℕ) (transactionID : Identifier) :
    Except StorageError (Session × Answer) := do
  let (f,position) ← s.file.createDurableCommitConsumer name after transactionID
  match f.openDurableCommitConsumer name position with
  | .error e => .ok ({ s with file := f },.failed e)
  | .ok opened => .ok (s.withConsumer opened,.pin opened.2.1)
def Session.openConsumer (name : Bytes) : Except StorageError (Session × Answer) := do
  let position ← s.file.durableConsumerPosition name
  let opened ← s.file.openDurableCommitConsumer name position
  .ok (s.withConsumer opened,.pin opened.2.1)
def Session.openIterator (snapshot : ℕ) : Except StorageError (Session × Answer) :=
  match s.snapshots.find snapshot, s.file.readers.find snapshot with
  | some _, some pin => do
    let (f,pinID) ← s.file.addReaderPin pin.sequence pin.replay
    .ok ({ s with file := f },.pin pinID)
  | none, _ => .error .cursorClosed
  | some _, none => .error .corrupt
def Session.close (pinID : ℕ) : Session where
  file := s.file.dropReaderPin pinID
  snapshots := s.snapshots.erase pinID
  streams := s.streams.erase pinID
  consumers := s.consumers.erase pinID
def Session.perform : Operation → Except StorageError (Session × Answer)
  | .publish p => do
    let f ← p.val.apply s.file
    .ok ({ s with file := f },.done)
  | .openSnapshot => do
    let (f,pinID) ← s.file.openSnapshot
    .ok ({ s with file := f, snapshots := s.snapshots.insert pinID s.file.root },.pin pinID)
  | .openSnapshotAndStream => s.openAt s.file.root.commitSequence
  | .openSnapshotAndStreamAt sequence => s.openAt sequence
  | .openStream after => do
    let (f,pinID,stream) ← s.file.openLiveCommitStream after
    .ok ({ s with file := f, streams := s.streams.insert pinID stream },.pin pinID)
  | .openCursor after => do
    let (f,pinID) ← s.file.openCommitCursor after
    .ok ({ s with file := f },.pin pinID)
  | .openIterator snapshot => s.openIterator snapshot
  | .openIndexBuildScan buildID => do
    let (f,pinID,_) ← s.file.openIndexBuildScan buildID
    .ok ({ s with file := f },.pin pinID)
  | .openIndexBuildCatchUp buildID => do
    let (f,pinID,_) ← s.file.openIndexBuildCatchUpSnapshot buildID
    .ok ({ s with file := f, snapshots := s.snapshots.insert pinID s.file.root },.pin pinID)
  | .streamNext pinID => s.streamNext pinID
  | .createConsumer name after transactionID => s.createConsumer name after transactionID
  | .openConsumer name => s.openConsumer name
  | .consumerNext pinID => s.consumerNext pinID
  | .ack pinID sequence => s.ack pinID sequence
  | .deleteConsumer name => do
    let f ← s.file.deleteDurableCommitConsumer name
    .ok ({ s with file := f },.done)
  | .close pinID => .ok (s.close pinID,.done)
  | .reopen maxCommits maxBytes => do
    let f ← s.file.reopen maxCommits maxBytes
    .ok (Session.start f,.done)
def Session.step (op : Operation) : Session :=
  match s.perform op with
  | .ok (s',_) => s'
  | .error _ => s

inductive Session.Reaches (allowed : Session → Operation → Prop) : Session → Prop
  | create (maxCommits maxBytes : ℕ) : Reaches allowed (Session.start (File.create maxCommits maxBytes))
  | step {s : Session} (op : Operation) (hs : Reaches allowed s) (hop : allowed s op) : Reaches allowed (s.step op)

theorem Session.Reaches.foldl {s : Session} (h : Session.Reaches (fun _ _ => True) s) (ops : List Operation) :
    Session.Reaches (fun _ _ => True) (ops.foldl Session.step s) := by
  induction ops generalizing s with
  | nil => exact h
  | cons op ops ih => exact ih (.step op h trivial)

theorem Session.Reaches.invariant {allowed : Session → Operation → Prop} {I : Session → Prop}
    (hcreate : ∀ maxCommits maxBytes, I (Session.start (File.create maxCommits maxBytes)))
    (hstep : ∀ s op, I s → allowed s op → I (s.step op)) {s : Session} (h : Session.Reaches allowed s) : I s := by
  induction h with
  | create maxCommits maxBytes => exact hcreate maxCommits maxBytes
  | step op _ hop ih => exact hstep _ op ih hop

end Meldbase.Logical
