import Meldbase.Logical.History

/-! # Elementary moves of a session

Every operation of a session is a chain of a few kinds of moves: a publication, a
pin with or without a handle, a delivery, an acknowledgement, a close, a
reopening.  Invariants of sessions are proved for moves.
-/
namespace Meldbase.Logical
open SortedMap Option
open Outcome (bind_eq_ok guard_eq_ok ok_bind)

/-! ### Pins -/

variable {f : File} {sequence pinID after : ℕ} {log : ℕ → CommitBatch} {stream : LiveCommitStream}
  {consumer : DurableCommitConsumer}

theorem addReaderPin_ok (h : f.addReaderPin sequence replay = .ok (f',pinID)) :
    pinID = f.nextPin+1 ∧
      f' = { f with nextPin := f.nextPin+1, readers := f.readers.insert (f.nextPin+1) ⟨sequence,replay⟩ } := by
  unfold File.addReaderPin at h
  obtain ⟨-,h⟩ := guard_eq_ok.mp h
  cases h
  exact ⟨rfl,rfl⟩

theorem retainedConsumerPosition_ok (h : retainedConsumerPosition root after = .ok ()) :
    after ≤ root.commitSequence ∧ (after < root.commitSequence → root.oldestRetainedSequence ≤ after+1) := by
  unfold retainedConsumerPosition at h
  obtain ⟨hle,h⟩ := guard_eq_ok.mp h
  obtain ⟨hkept,-⟩ := guard_eq_ok.mp h
  simp only [Bool.and_eq_true,Bool.or_eq_true,decide_eq_true_eq] at hkept
  refine ⟨by omega,fun hlt => ?_⟩
  by_contra hold
  exact hkept ⟨hlt,.inr (by omega)⟩

theorem historicalRoot_ok (h : historicalRoot root sequence = .ok historical) :
    sequence ≤ root.commitSequence ∧ (sequence < root.commitSequence → root.oldestRetainedSequence ≤ sequence+1) := by
  unfold historicalRoot at h
  obtain ⟨hle,h⟩ := guard_eq_ok.mp h
  refine ⟨by omega,fun hlt => ?_⟩
  rw [if_neg (by omega)] at h
  split_ifs at h with hzero hold hold
  · omega
  · simp only [Bool.or_eq_true,decide_eq_true_eq,not_or] at hold
    omega

/-- Replay may start after `sequence`. -/
def Replayable (root : DatabaseRoot) (sequence : ℕ) : Prop :=
  sequence ≤ root.commitSequence ∧ (sequence < root.commitSequence → root.oldestRetainedSequence ≤ sequence+1)

/-! ### Deliveries -/

/-- The log of a file has what a reader at `after` needs next. -/
structure File.Serves (f : File) (after : ℕ) (log : ℕ → CommitBatch) : Prop where
  holds : LogHolds (openTree f.root.commitLogRoot) f.root.oldestRetainedSequence f.root.commitSequence log
  sequence_le : f.root.commitSequence ≤ maxUint64
  after_le : after ≤ f.root.commitSequence
  next : f.root.oldestRetainedSequence ≤ after+1

theorem FileLogged.serves [Sha256] (h : FileLogged f log) {id : ℕ}
    (hreader : f.readers.find id = some ⟨after,true⟩) : f.Serves after log :=
  ⟨h.logged.holds,h.sequence_le,(h.logged.pins id _ hreader rfl).1,(h.logged.pins id _ hreader rfl).2⟩

theorem streamNext_spec (hserves : f.Serves stream.after log) (hreader : f.readers.find pinID = some ⟨stream.after,true⟩) :
    (stream.after = f.root.commitSequence ∧ f.streamNext pinID stream = .ok none) ∨
      (stream.after < f.root.commitSequence ∧ f.streamNext pinID stream =
        .ok (some ({ f with readers := f.readers.insert pinID ⟨stream.after+1,true⟩ },
          ⟨stream.after+1,stream.after+1⟩,log (stream.after+1)))) := by
  obtain ⟨hholds,hmax,hle,hold⟩ := hserves
  have hguard : ¬ ((stream.after < f.root.commitSequence &&
      (stream.after = maxUint64 || stream.after+1 < f.root.oldestRetainedSequence)) = true) := by
    simp only [Bool.and_eq_true,Bool.or_eq_true,decide_eq_true_eq]
    omega
  unfold File.streamNext
  rw [if_neg hguard]
  rcases Nat.lt_or_ge stream.after f.root.commitSequence with hlt | hge
  · right
    refine ⟨hlt,?_⟩
    rw [if_pos hlt,hholds.readCommit_eq (by omega) hold (by omega),ok_bind,hreader]
  left
  refine ⟨by omega,?_⟩
  rw [if_neg (by omega)]

theorem consumerNext_spec (hserves : f.Serves consumer.stream.after log)
    (hreader : f.readers.find pinID = some ⟨consumer.stream.after,true⟩)
    (hdelivered : consumer.delivered ≤ consumer.stream.after) :
    (consumer.stream.after = f.root.commitSequence ∧ f.consumerNext pinID consumer = .ok none) ∨
      (consumer.stream.after < f.root.commitSequence ∧ f.consumerNext pinID consumer =
        .ok (some ({ f with readers := f.readers.insert pinID ⟨consumer.stream.after+1,true⟩ },
          { consumer with
            stream := ⟨consumer.stream.after+1,consumer.stream.after+1⟩
            delivered := consumer.stream.after+1 },log (consumer.stream.after+1)))) := by
  unfold File.consumerNext
  rcases streamNext_spec hserves hreader with ⟨hseq,hnext⟩ | ⟨hlt,hnext⟩
  · left
    refine ⟨hseq,?_⟩
    rw [hnext,ok_bind]
  right
  refine ⟨hlt,?_⟩
  have hbatch := (hserves.holds.batch (consumer.stream.after+1) (by omega) hserves.next (by omega)).sequence_eq
  rw [hnext,ok_bind]
  dsimp only
  rw [hbatch,if_neg (by omega)]

/-! ### Moves -/

inductive Session.Move [Sha256] : Session → Session → Prop
  | publish {s : Session} {p : Publication} {f : File} (happly : p.apply s.file = .ok f) : Move s { s with file := f }
  /-- A pin without a handle; a replay pin is a copy of one that is open. -/
  | pin {s : Session} {f : File} {sequence pinID : ℕ} {replay : Bool}
      (hadd : s.file.addReaderPin sequence replay = .ok (f,pinID))
      (hcopy : replay = true → ∃ id, s.file.readers.find id = some ⟨sequence,true⟩) : Move s { s with file := f }
  | stream {s : Session} {f : File} {sequence pinID : ℕ} (hadd : s.file.addReaderPin sequence true = .ok (f,pinID))
      (hreplay : Replayable s.file.root sequence) :
      Move s { s with file := f, streams := s.streams.insert pinID ⟨sequence,0⟩ }
  | consumer {s : Session} {f : File} {sequence pinID : ℕ} {name : Bytes}
      (hadd : s.file.addReaderPin sequence true = .ok (f,pinID)) (hreplay : Replayable s.file.root sequence) :
      Move s { s with file := f, consumers := s.consumers.insert pinID ⟨name,⟨sequence,0⟩,sequence,sequence⟩ }
  | streamNext {s : Session} {f : File} {pinID : ℕ} {stream stream' : LiveCommitStream} {batch : CommitBatch}
      (hstream : s.streams.find pinID = some stream)
      (hnext : s.file.streamNext pinID stream = .ok (some (f,stream',batch))) :
      Move s { s with file := f, streams := s.streams.insert pinID stream' }
  | consumerNext {s : Session} {f : File} {pinID : ℕ} {consumer consumer' : DurableCommitConsumer} {batch : CommitBatch}
      (hconsumer : s.consumers.find pinID = some consumer)
      (hnext : s.file.consumerNext pinID consumer = .ok (some (f,consumer',batch))) :
      Move s { s with file := f, consumers := s.consumers.insert pinID consumer' }
  | acknowledge {s : Session} {pinID : ℕ} {consumer : DurableCommitConsumer} (checkpoint : ℕ)
      (hconsumer : s.consumers.find pinID = some consumer) :
      Move s { s with consumers := s.consumers.insert pinID { consumer with checkpoint := checkpoint } }
  | snapshots {s : Session} (snapshots : SortedMap ℕ DatabaseRoot) : Move s { s with snapshots := snapshots }
  | close {s : Session} (pinID : ℕ) : Move s (s.close pinID)
  | reopen {s : Session} {f : File} {maxCommits maxBytes : ℕ} (hreopen : s.file.reopen maxCommits maxBytes = .ok f) :
      Move s (Session.start f)

abbrev Session.Moves [Sha256] : Session → Session → Prop := Relation.ReflTransGen Session.Move

variable {s s' : Session}

theorem Session.Move.moves [Sha256] (h : s.Move s') : s.Moves s' := .single h

theorem Session.Move.plainPin [Sha256] (hadd : s.file.addReaderPin sequence false = .ok (f,pinID)) :
    s.Move { s with file := f } :=
  .pin hadd nofun

/-! ### What the operations of a consumer do -/

section
variable {f' : File} {name : Bytes} {position : ℕ} {transactionID : Identifier} {a : Answer}

theorem createDurableCommitConsumer_cases [Sha256]
    (h : f.createDurableCommitConsumer name after transactionID = .ok (f',position)) :
    ∃ cs, Replayable f.root after ∧ durableConsumerCheckpoints f.root.catalogRoot = .ok cs ∧ findDurableConsumer cs name = none ∧
      (f.root.commitSequence = 0 ∧ f.createInitialDurableConsumer name transactionID = .ok f' ∧ position = 1 ∨
        f.replaceDurableConsumerCheckpoints (cs ++ [⟨name,after⟩]) = .ok f' ∧ position = after) := by
  unfold File.createDurableCommitConsumer at h
  obtain ⟨-,h⟩ := guard_eq_ok.mp h
  obtain ⟨_,hposition,h⟩ := bind_eq_ok.mp h
  obtain ⟨cs,hcs,h⟩ := bind_eq_ok.mp h
  obtain ⟨hnew,h⟩ := guard_eq_ok.mp h
  obtain ⟨-,h⟩ := guard_eq_ok.mp h
  refine ⟨cs,retainedConsumerPosition_ok hposition,hcs,by simpa using hnew,?_⟩
  split_ifs at h with hzero
  · obtain ⟨f1,hinitial,h⟩ := bind_eq_ok.mp h
    cases h
    exact .inl ⟨hzero,hinitial,rfl⟩
  obtain ⟨f1,hreplace,h⟩ := bind_eq_ok.mp h
  cases h
  exact .inr ⟨hreplace,rfl⟩

theorem ackDurableConsumer_cases [Sha256] (h : f.ackDurableConsumer consumer sequence = .ok (f',consumer')) :
    consumer.checkpoint ≤ sequence ∧ sequence ≤ consumer.delivered ∧ ∃ cs c,
      durableConsumerCheckpoints f.root.catalogRoot = .ok cs ∧ findDurableConsumer cs consumer.name = some c ∧
      consumer' = { consumer with checkpoint := max c.ack sequence } ∧
      (sequence ≤ c.ack ∧ f' = f ∨
        c.ack < sequence ∧ f.replaceDurableConsumerCheckpoints (withAck cs consumer.name sequence) = .ok f') := by
  unfold File.ackDurableConsumer at h
  obtain ⟨hguard,h⟩ := guard_eq_ok.mp h
  simp only [Bool.or_eq_true,decide_eq_true_eq,not_or,not_lt] at hguard
  obtain ⟨cs,hcs,h⟩ := bind_eq_ok.mp h
  split at h
  · cases h
  rename_i c hfind
  refine ⟨hguard.1,hguard.2,cs,c,hcs,hfind,?_⟩
  split_ifs at h with hstale
  · cases h
    exact ⟨by rw [max_eq_left hstale],.inl ⟨hstale,rfl⟩⟩
  obtain ⟨f1,hreplace,h⟩ := bind_eq_ok.mp h
  cases h
  exact ⟨by rw [max_eq_right (not_le.mp hstale).le],.inr ⟨not_le.mp hstale,hreplace⟩⟩

theorem deleteDurableCommitConsumer_cases [Sha256] (h : f.deleteDurableCommitConsumer name = .ok f') :
    ∃ cs, durableConsumerCheckpoints f.root.catalogRoot = .ok cs ∧
      f.replaceDurableConsumerCheckpoints (cs.filter (fun c => c.name ≠ name)) = .ok f' := by
  unfold File.deleteDurableCommitConsumer at h
  obtain ⟨-,h⟩ := guard_eq_ok.mp h
  obtain ⟨cs,hcs,h⟩ := bind_eq_ok.mp h
  split at h
  · cases h
  · exact ⟨cs,hcs,h⟩

theorem Session.createConsumer_cases [Sha256] (h : s.createConsumer name after transactionID = .ok (s',a)) :
    ∃ f position, s.file.createDurableCommitConsumer name after transactionID = .ok (f,position) ∧ (s' = { s with file := f } ∨
      ∃ f1 pinID, f.addReaderPin position true = .ok (f1,pinID) ∧
        s' = { s with file := f1, consumers := s.consumers.insert pinID ⟨name,⟨position,0⟩,position,position⟩ }) := by
  unfold Session.createConsumer at h
  obtain ⟨⟨f,position⟩,hcreate,h⟩ := bind_eq_ok.mp h
  refine ⟨f,position,hcreate,?_⟩
  dsimp only at h
  split at h
  · -- the checkpoint is saved and the handle could not be opened
    cases h
    exact .inl rfl
  rename_i opened hopen
  cases h
  obtain ⟨⟨f1,pinID⟩,hadd,hopen⟩ := bind_eq_ok.mp hopen
  cases hopen
  exact .inr ⟨f1,pinID,hadd,rfl⟩

theorem Session.ack_cases [Sha256] (h : s.ack pinID sequence = .ok (s',a)) :
    ∃ consumer f consumer', s.consumers.find pinID = some consumer ∧
      s.file.ackDurableConsumer consumer sequence = .ok (f,consumer') ∧
      s' = { s with file := f, consumers := s.consumers.insert pinID consumer' } := by
  unfold Session.ack at h
  split at h
  · cases h
  rename_i consumer hconsumer
  obtain ⟨⟨f,consumer'⟩,hack,h⟩ := bind_eq_ok.mp h
  cases h
  exact ⟨consumer,f,consumer',hconsumer,hack,rfl⟩

end

/-! ### Every operation is a chain of moves -/

theorem createDurableCommitConsumer_ok [Sha256]
    (h : s.file.createDurableCommitConsumer name after transactionID = .ok (f,position)) :
    s.Move { s with file := f } ∧ Replayable f.root position := by
  obtain ⟨cs,hafter,-,-,⟨hzero,hinitial,rfl⟩ | ⟨hreplace,rfl⟩⟩ := createDurableCommitConsumer_cases h
  · -- the first commit of the file
    obtain ⟨tx,root,batch,_,_,-,hup,-⟩ := createInitialDurableConsumer_ok hinitial
    refine ⟨.publish (p := .initialConsumer name transactionID) hinitial,?_⟩
    have hseq := hup.commitSequence
    constructor <;> omega
  obtain ⟨_,_,-,-,hup⟩ := replaceDurableConsumerCheckpoints_ok hreplace
  refine ⟨.publish (p := .replaceCheckpoints _) hreplace,?_⟩
  have hseq : f.root.commitSequence = s.file.root.commitSequence := hup.commitSequence
  have hold : f.root.oldestRetainedSequence = s.file.root.oldestRetainedSequence := by
    rw [hup.file]
    exact WriteTxn.finalRoot_oldestRetainedSequence _ _
  unfold Replayable
  rw [hseq,hold]
  exact hafter

theorem durableConsumerPosition_replayable (h : f.durableConsumerPosition name = .ok position) : Replayable f.root position := by
  unfold File.durableConsumerPosition at h
  obtain ⟨-,h⟩ := guard_eq_ok.mp h
  obtain ⟨cs,-,h⟩ := bind_eq_ok.mp h
  split at h
  · cases h
  obtain ⟨_,hretained,h⟩ := bind_eq_ok.mp h
  cases h
  exact retainedConsumerPosition_ok hretained

variable {a : Answer}

theorem Session.openAt_moves [Sha256] (h : s.openAt sequence = .ok (s',a)) :
    s.Moves s' := by
  unfold Session.openAt at h
  obtain ⟨⟨f,snapshotPin,streamPin,historical,stream⟩,hopen,h⟩ := bind_eq_ok.mp h
  cases h
  unfold File.openSnapshotAndStreamAt at hopen
  obtain ⟨root,hroot,hopen⟩ := bind_eq_ok.mp hopen
  obtain ⟨⟨f1,pin1⟩,hadd1,hopen⟩ := bind_eq_ok.mp hopen
  obtain ⟨⟨f2,pin2⟩,hadd2,hopen⟩ := bind_eq_ok.mp hopen
  cases hopen
  have hsame : f1.root = s.file.root := by rw [(addReaderPin_ok hadd1).2]
  have hpin : s.Move { s with file := f1 } := .pin hadd1 nofun
  have hstream : Session.Move { s with file := f1 } { s with file := f, streams := s.streams.insert streamPin ⟨sequence,0⟩ } :=
    .stream (s := { s with file := f1 }) hadd2 (by dsimp only; rw [hsame]; exact historicalRoot_ok hroot)
  exact (hpin.moves.tail hstream).tail (.snapshots _)

theorem Session.createConsumer_moves [Sha256] (h : s.createConsumer name after transactionID = .ok (s',a)) : s.Moves s' := by
  obtain ⟨f,position,hcreate,hopen⟩ := Session.createConsumer_cases h
  obtain ⟨hsaved,hreplay⟩ := createDurableCommitConsumer_ok hcreate
  rcases hopen with rfl | ⟨f1,pinID,hadd,rfl⟩
  · exact hsaved.moves
  · exact hsaved.moves.tail (.consumer (s := { s with file := f }) hadd hreplay)

theorem Session.ack_moves [Sha256] (h : s.ack pinID sequence = .ok (s',a)) :
    s.Moves s' := by
  obtain ⟨consumer,f,_,hconsumer,hack,rfl⟩ := Session.ack_cases h
  obtain ⟨-,-,cs,c,-,-,rfl,⟨-,rfl⟩ | ⟨-,hreplace⟩⟩ := ackDurableConsumer_cases hack
  · exact (Session.Move.acknowledge _ hconsumer).moves
  · have hpublish : s.Move { s with file := f } := .publish (p := .replaceCheckpoints _) hreplace
    exact hpublish.moves.tail (.acknowledge (s := { s with file := f }) _ hconsumer)

theorem Session.openIterator_moves [Sha256] (h : s.openIterator snapshot = .ok (s',a)) : s.Moves s' := by
  unfold Session.openIterator at h
  split at h
  · rename_i root pin hsnapshot hpin
    obtain ⟨⟨f,pinID⟩,hadd,h⟩ := bind_eq_ok.mp h
    cases h
    refine (Session.Move.pin hadd ?_).moves
    intro hreplay
    exact ⟨snapshot,by rw [hpin,← hreplay]⟩
  · cases h
  · cases h

theorem Session.streamNext_moves [Sha256] (h : s.streamNext pinID = .ok (s',a)) :
    s.Moves s' := by
  unfold Session.streamNext at h
  split at h
  · cases h
  rename_i stream hstream
  obtain ⟨next,hnext,h⟩ := bind_eq_ok.mp h
  split at h
  · cases h
    exact .refl
  · cases h
    exact (Session.Move.streamNext hstream hnext).moves

theorem Session.consumerNext_moves [Sha256] (h : s.consumerNext pinID = .ok (s',a)) :
    s.Moves s' := by
  unfold Session.consumerNext at h
  split at h
  · cases h
  rename_i consumer hconsumer
  obtain ⟨next,hnext,h⟩ := bind_eq_ok.mp h
  split at h
  · cases h
    exact .refl
  · cases h
    exact (Session.Move.consumerNext hconsumer hnext).moves

theorem openIndexBuildScan_pin
    (h : f.openIndexBuildScan buildID = .ok (f',pinID,build)) : ∃ sequence, f.addReaderPin sequence false = .ok (f',pinID) := by
  obtain ⟨-,h⟩ := guard_eq_ok.mp h
  obtain ⟨_,-,h⟩ := bind_eq_ok.mp h
  obtain ⟨-,h⟩ := guard_eq_ok.mp h
  obtain ⟨_,-,h⟩ := bind_eq_ok.mp h
  obtain ⟨⟨f1,pin1⟩,hadd,h⟩ := bind_eq_ok.mp h
  cases h
  exact ⟨_,hadd⟩

theorem openIndexBuildCatchUpSnapshot_pin (h : f.openIndexBuildCatchUpSnapshot buildID = .ok (f',pinID,build)) :
    ∃ sequence, f.addReaderPin sequence false = .ok (f',pinID) := by
  obtain ⟨-,h⟩ := guard_eq_ok.mp h
  obtain ⟨_,-,h⟩ := bind_eq_ok.mp h
  obtain ⟨-,h⟩ := guard_eq_ok.mp h
  obtain ⟨-,h⟩ := guard_eq_ok.mp h
  obtain ⟨⟨f1,pin1⟩,hadd,h⟩ := bind_eq_ok.mp h
  cases h
  exact ⟨_,hadd⟩

theorem Session.perform_moves [Sha256] (h : s.perform op = .ok (s',a)) :
    s.Moves s' := by
  cases op with
  | publish p =>
    obtain ⟨f,happly,h⟩ := bind_eq_ok.mp h
    cases h
    exact (Session.Move.publish happly).moves
  | openSnapshot =>
    obtain ⟨⟨f,pinID⟩,hadd,h⟩ := bind_eq_ok.mp h
    cases h
    exact (Session.Move.plainPin hadd).moves.tail (.snapshots _)
  | openSnapshotAndStream => exact Session.openAt_moves h
  | openSnapshotAndStreamAt sequence => exact Session.openAt_moves h
  | openStream after =>
    obtain ⟨⟨f,pinID,stream⟩,hopen,h⟩ := bind_eq_ok.mp h
    cases h
    unfold File.openLiveCommitStream at hopen
    obtain ⟨_,hretained,hopen⟩ := bind_eq_ok.mp hopen
    obtain ⟨⟨f1,pin⟩,hadd,hopen⟩ := bind_eq_ok.mp hopen
    cases hopen
    exact (Session.Move.stream hadd (retainedConsumerPosition_ok hretained)).moves
  | openCursor after =>
    obtain ⟨⟨f,pinID⟩,hopen,h⟩ := bind_eq_ok.mp h
    cases h
    obtain ⟨_,-,hadd⟩ := bind_eq_ok.mp hopen
    exact (Session.Move.plainPin hadd).moves
  | openIterator snapshot => exact Session.openIterator_moves h
  | openIndexBuildScan buildID =>
    obtain ⟨⟨f,pinID,build⟩,hopen,h⟩ := bind_eq_ok.mp h
    cases h
    obtain ⟨_,hadd⟩ := openIndexBuildScan_pin hopen
    exact (Session.Move.plainPin hadd).moves
  | openIndexBuildCatchUp buildID =>
    obtain ⟨⟨f,pinID,build⟩,hopen,h⟩ := bind_eq_ok.mp h
    cases h
    obtain ⟨_,hadd⟩ := openIndexBuildCatchUpSnapshot_pin hopen
    exact (Session.Move.plainPin hadd).moves.tail (.snapshots _)
  | streamNext pinID => exact Session.streamNext_moves h
  | createConsumer name after transactionID => exact Session.createConsumer_moves h
  | openConsumer name =>
    obtain ⟨position,hposition,h⟩ := bind_eq_ok.mp h
    obtain ⟨opened,hopen,h⟩ := bind_eq_ok.mp h
    cases h
    obtain ⟨⟨f,pinID⟩,hadd,hopen⟩ := bind_eq_ok.mp hopen
    cases hopen
    exact (Session.Move.consumer hadd (durableConsumerPosition_replayable hposition)).moves
  | consumerNext pinID => exact Session.consumerNext_moves h
  | ack pinID sequence => exact Session.ack_moves h
  | deleteConsumer name =>
    obtain ⟨f,hdelete,h⟩ := bind_eq_ok.mp h
    cases h
    obtain ⟨cs,-,hreplace⟩ := deleteDurableCommitConsumer_cases hdelete
    exact (Session.Move.publish (p := .replaceCheckpoints _) hreplace).moves
  | close pinID =>
    cases h
    exact (Session.Move.close pinID).moves
  | reopen maxCommits maxBytes =>
    obtain ⟨f,hreopen,h⟩ := bind_eq_ok.mp h
    cases h
    exact (Session.Move.reopen hreopen).moves

theorem Session.step_moves [Sha256] (s : Session) (op : Operation) : s.Moves (s.step op) := by
  unfold Session.step
  split
  · rename_i s' a h
    exact Session.perform_moves h
  · exact .refl

/-! ### The log and the handles of a session -/

/-- Every open stream and consumer stands where its own pin does. -/
structure HandlesOk (s : Session) : Prop where
  fresh : ∀ id pin, s.file.readers.find id = some pin → id ≤ s.file.nextPin
  streams : ∀ id stream, s.streams.find id = some stream → s.file.readers.find id = some ⟨stream.after,true⟩
  consumers : ∀ id consumer, s.consumers.find id = some consumer →
    s.file.readers.find id = some ⟨consumer.stream.after,true⟩ ∧ consumer.delivered = consumer.stream.after
  disjoint : ∀ id stream, s.streams.find id = some stream → s.consumers.find id = none

structure SessionLogged [Sha256] (s : Session) (log : ℕ → CommitBatch) : Prop where
  file : FileLogged s.file log
  handles : HandlesOk s

section
variable (h : HandlesOk s)
include h

theorem HandlesOk.of_readers (hreaders : f.readers = s.file.readers)
    (hnext : f.nextPin = s.file.nextPin) : HandlesOk { s with file := f } := by
  constructor
  · dsimp only
    rw [hreaders,hnext]
    exact h.fresh
  · dsimp only
    rw [hreaders]
    exact h.streams
  · dsimp only
    rw [hreaders]
    exact h.consumers
  · exact h.disjoint

theorem HandlesOk.pin_unused {id : ℕ} (hid : s.file.readers.find id = none) :
    s.streams.find id = none ∧ s.consumers.find id = none := by
  constructor
  · rw [eq_none_iff_forall_not_mem]
    intro stream hmem
    rw [h.streams id stream hmem] at hid
    cases hid
  rw [eq_none_iff_forall_not_mem]
  intro consumer hmem
  rw [(h.consumers id consumer hmem).1] at hid
  cases hid

theorem HandlesOk.next_unused : s.file.readers.find (s.file.nextPin+1) = none := by
  rw [eq_none_iff_forall_not_mem]
  intro pin hmem
  have := h.fresh _ pin hmem
  omega

theorem HandlesOk.addPin (hadd : s.file.addReaderPin sequence replay = .ok (f,pinID)) : HandlesOk { s with file := f } := by
  obtain ⟨rfl,rfl⟩ := addReaderPin_ok hadd
  have hnew := h.next_unused
  have hkeep : ∀ id pin, s.file.readers.find id = some pin →
      (s.file.readers.insert (s.file.nextPin+1) ⟨sequence,replay⟩).find id = some pin := by
    intro id pin hfind
    rw [find_insert,if_neg]
    · exact hfind
    rintro rfl
    rw [hnew] at hfind
    cases hfind
  refine ⟨?_,?_,?_,h.disjoint⟩
  · intro id pin hfind
    dsimp only at hfind ⊢
    rw [find_insert] at hfind
    split_ifs at hfind with hid
    · omega
    · have := h.fresh id pin hfind
      omega
  · intro id stream hstream
    exact hkeep id _ (h.streams id stream hstream)
  intro id consumer hconsumer
  obtain ⟨hreader,hle⟩ := h.consumers id consumer hconsumer
  exact ⟨hkeep id _ hreader,hle⟩

theorem HandlesOk.setStream
    (hreader : s.file.readers.find pinID = some ⟨stream.after,true⟩) (hconsumer : s.consumers.find pinID = none) :
    HandlesOk { s with streams := s.streams.insert pinID stream } := by
  refine ⟨h.fresh,?_,h.consumers,?_⟩
  · intro id stream' hfind
    rw [find_insert] at hfind
    split_ifs at hfind with hid
    · cases hfind
      rw [hid]
      exact hreader
    · exact h.streams id stream' hfind
  intro id stream' hfind
  rw [find_insert] at hfind
  split_ifs at hfind with hid
  · rw [hid]
    exact hconsumer
  · exact h.disjoint id stream' hfind

theorem HandlesOk.setConsumer (hreader : s.file.readers.find pinID = some ⟨consumer.stream.after,true⟩)
    (hdelivered : consumer.delivered = consumer.stream.after) (hstream : s.streams.find pinID = none) :
    HandlesOk { s with consumers := s.consumers.insert pinID consumer } := by
  refine ⟨h.fresh,h.streams,?_,?_⟩
  · intro id consumer' hfind
    rw [find_insert] at hfind
    split_ifs at hfind with hid
    · cases hfind
      rw [hid]
      exact ⟨hreader,hdelivered⟩
    · exact h.consumers id consumer' hfind
  intro id stream hfind
  rw [find_insert]
  split_ifs with hid
  · rw [hid,hstream] at hfind
    cases hfind
  · exact h.disjoint id stream hfind

theorem HandlesOk.movePin (hreader : s.file.readers.find pinID = some old) (pin : ReaderPin) :
    (∀ id other, (s.file.readers.insert pinID pin).find id = some other → id ≤ s.file.nextPin) ∧
      (s.file.readers.insert pinID pin).find pinID = some pin ∧
      ∀ id other, id ≠ pinID → s.file.readers.find id = some other →
        (s.file.readers.insert pinID pin).find id = some other := by
  refine ⟨?_,by rw [find_insert,if_pos rfl],?_⟩
  · intro id other hfind
    rw [find_insert] at hfind
    split_ifs at hfind with hid
    · rw [hid]
      exact h.fresh pinID _ hreader
    · exact h.fresh id other hfind
  intro id other hid hfind
  rw [find_insert,if_neg hid]
  exact hfind

theorem HandlesOk.streamMoved (hstream : s.streams.find pinID = some stream) :
    HandlesOk { s with
      file := { s.file with readers := s.file.readers.insert pinID ⟨after,true⟩ }
      streams := s.streams.insert pinID ⟨after,after⟩ } := by
  obtain ⟨hfresh,hself,hother⟩ := h.movePin (h.streams pinID stream hstream) ⟨after,true⟩
  refine ⟨hfresh,?_,?_,?_⟩
  · intro id stream' hfind
    rw [find_insert] at hfind
    split_ifs at hfind with hid
    · cases hfind
      rw [hid]
      exact hself
    · exact hother id _ hid (h.streams id stream' hfind)
  · intro id consumer hfind
    have hid : id ≠ pinID := by
      rintro rfl
      rw [h.disjoint id stream hstream] at hfind
      cases hfind
    obtain ⟨hreader,hdelivered⟩ := h.consumers id consumer hfind
    exact ⟨hother id _ hid hreader,hdelivered⟩
  intro id stream' hfind
  rw [find_insert] at hfind
  split_ifs at hfind with hid
  · rw [hid]
    exact h.disjoint pinID stream hstream
  · exact h.disjoint id stream' hfind

theorem HandlesOk.consumerMoved (hconsumer : s.consumers.find pinID = some consumer) :
    HandlesOk { s with
      file := { s.file with readers := s.file.readers.insert pinID ⟨after,true⟩ }
      consumers := s.consumers.insert pinID { consumer with stream := ⟨after,after⟩, delivered := after } } := by
  obtain ⟨hfresh,hself,hother⟩ := h.movePin (h.consumers pinID consumer hconsumer).1 ⟨after,true⟩
  have hne : ∀ id stream, s.streams.find id = some stream → id ≠ pinID := by
    rintro id stream hfind rfl
    rw [h.disjoint id stream hfind] at hconsumer
    cases hconsumer
  refine ⟨hfresh,?_,?_,?_⟩
  · intro id stream hfind
    exact hother id _ (hne id stream hfind) (h.streams id stream hfind)
  · intro id consumer' hfind
    rw [find_insert] at hfind
    split_ifs at hfind with hid
    · cases hfind
      rw [hid]
      exact ⟨hself,rfl⟩
    · obtain ⟨hreader,hdelivered⟩ := h.consumers id consumer' hfind
      exact ⟨hother id _ hid hreader,hdelivered⟩
  intro id stream hfind
  dsimp only at hfind ⊢
  rw [find_insert,if_neg (hne id stream hfind)]
  exact h.disjoint id stream hfind

theorem HandlesOk.close (pinID : ℕ) : HandlesOk (s.close pinID) := by
  constructor
  · intro id pin hfind
    exact h.fresh id pin (find_erase_eq_some.mp hfind).2
  · intro id stream hfind
    obtain ⟨hid,hfind⟩ := find_erase_eq_some.mp hfind
    exact find_erase_eq_some.mpr ⟨hid,h.streams id stream hfind⟩
  · intro id consumer hfind
    obtain ⟨hid,hfind⟩ := find_erase_eq_some.mp hfind
    exact (h.consumers id consumer hfind).imp_left (fun hreader => find_erase_eq_some.mpr ⟨hid,hreader⟩)
  intro id stream hfind
  obtain ⟨hid,hfind⟩ := find_erase_eq_some.mp hfind
  exact (find_erase s.consumers pinID id).trans ((if_neg hid).trans (h.disjoint id stream hfind))

end

theorem HandlesOk.start (hreaders : f.readers = ∅) : HandlesOk (Session.start f) := by
  constructor
  · intro id pin hfind
    have hnone : f.readers.find id = some pin := hfind
    rw [hreaders,find_empty] at hnone
    cases hnone
  all_goals
    intro id handle hfind
    exact absurd hfind (by simp [Session.start])

structure LogExtends (s : Session) (log : ℕ → CommitBatch) (s' : Session) (log' : ℕ → CommitBatch) : Prop where
  sequence_mono : s.file.root.commitSequence ≤ s'.file.root.commitSequence
  agree : ∀ q ≤ s.file.root.commitSequence, log' q = log q

theorem LogExtends.of_root (h : s'.file.root = s.file.root) (log : ℕ → CommitBatch) :
    LogExtends s log s' log := ⟨by rw [h],fun _ _ => rfl⟩

theorem LogExtends.trans {log' log'' : ℕ → CommitBatch} (h : LogExtends s log s' log')
    (h' : LogExtends s' log' s'' log'') : LogExtends s log s'' log'' :=
  ⟨h.sequence_mono.trans h'.sequence_mono,
    fun q hq => (h'.agree q (hq.trans h.sequence_mono)).trans (h.agree q hq)⟩

theorem FileLogged.addPin [Sha256] (h : FileLogged f log) (hadd : f.addReaderPin sequence replay = .ok (f',pinID))
    (hpin : replay = true → Replayable f.root sequence) :
    FileLogged f' log ∧ f'.root = f.root ∧ f'.readers.find pinID = some ⟨sequence,replay⟩ := by
  obtain ⟨rfl,rfl⟩ := addReaderPin_ok hadd
  refine ⟨h.setReader _ _ _ ?_,rfl,by rw [find_insert,if_pos rfl]⟩
  intro hreplay
  obtain ⟨hle,hkept⟩ := hpin hreplay
  have hold := h.oldest_le
  dsimp only
  omega

theorem SessionLogged.addPin [Sha256] (h : SessionLogged s log) (hadd : s.file.addReaderPin sequence replay = .ok (f,pinID))
    (hpin : replay = true → Replayable s.file.root sequence) :
    SessionLogged { s with file := f } log ∧ f.root = s.file.root ∧ f.readers.find pinID = some ⟨sequence,replay⟩ ∧
      s.streams.find pinID = none ∧ s.consumers.find pinID = none := by
  obtain ⟨hfile,hroot,hreader⟩ := h.file.addPin hadd hpin
  have hunused := h.handles.pin_unused h.handles.next_unused
  rw [← (addReaderPin_ok hadd).1] at hunused
  exact ⟨⟨hfile,h.handles.addPin hadd⟩,hroot,hreader,hunused⟩

theorem SessionLogged.move [Sha256] (h : SessionLogged s log) (hm : s.Move s') :
    ∃ log', SessionLogged s' log' ∧ LogExtends s log s' log' := by
  cases hm with
  | publish happly =>
    obtain ⟨log',hf,hext⟩ := Publication.logged h.file happly
    exact ⟨log',⟨hf,h.handles.of_readers hext.readers hext.nextPin⟩,hext.sequence_mono,hext.agree⟩
  | pin hadd hcopy =>
    obtain ⟨hs,hroot,-⟩ := h.addPin hadd (by
      intro hreplay
      obtain ⟨id,hid⟩ := hcopy hreplay
      obtain ⟨hle,hkept⟩ := h.file.logged.pins id _ hid rfl
      exact ⟨hle,fun _ => hkept⟩)
    exact ⟨log,hs,LogExtends.of_root hroot log⟩
  | stream hadd hreplay =>
    obtain ⟨hs,hroot,hreader,-,hconsumer⟩ := h.addPin hadd (fun _ => hreplay)
    exact ⟨log,⟨hs.file,hs.handles.setStream hreader hconsumer⟩,LogExtends.of_root hroot log⟩
  | consumer hadd hreplay =>
    obtain ⟨hs,hroot,hreader,hstream,-⟩ := h.addPin hadd (fun _ => hreplay)
    exact ⟨log,⟨hs.file,hs.handles.setConsumer hreader rfl hstream⟩,LogExtends.of_root hroot log⟩
  | streamNext hstream hnext =>
    have hreader := h.handles.streams _ _ hstream
    have hserves := h.file.serves hreader
    rcases streamNext_spec hserves hreader with ⟨-,hwait⟩ | ⟨hlt,hmoved⟩
    · rw [hwait] at hnext
      cases hnext
    rw [hmoved] at hnext
    cases hnext
    have hold := hserves.next
    exact ⟨log,⟨h.file.setReader _ _ _ (fun _ => ⟨by dsimp only; omega,by dsimp only; omega⟩),
      h.handles.streamMoved hstream⟩,⟨le_rfl,fun _ _ => rfl⟩⟩
  | consumerNext hconsumer hnext =>
    obtain ⟨hreader,hdelivered⟩ := h.handles.consumers _ _ hconsumer
    have hserves := h.file.serves hreader
    rcases consumerNext_spec hserves hreader hdelivered.le with ⟨-,hwait⟩ | ⟨hlt,hmoved⟩
    · rw [hwait] at hnext
      cases hnext
    rw [hmoved] at hnext
    cases hnext
    have hold := hserves.next
    exact ⟨log,⟨h.file.setReader _ _ _ (fun _ => ⟨by dsimp only; omega,by dsimp only; omega⟩),
      h.handles.consumerMoved hconsumer⟩,⟨le_rfl,fun _ _ => rfl⟩⟩
  | acknowledge checkpoint hconsumer =>
    obtain ⟨hreader,hdelivered⟩ := h.handles.consumers _ _ hconsumer
    refine ⟨log,⟨h.file,h.handles.setConsumer hreader hdelivered ?_⟩,⟨le_rfl,fun _ _ => rfl⟩⟩
    rw [eq_none_iff_forall_not_mem]
    intro stream hmem
    rw [h.handles.disjoint _ stream hmem] at hconsumer
    cases hconsumer
  | snapshots snapshots =>
    exact ⟨log,⟨h.file,h.handles.fresh,h.handles.streams,h.handles.consumers,h.handles.disjoint⟩,⟨le_rfl,fun _ _ => rfl⟩⟩
  | close pinID => exact ⟨log,⟨h.file.dropReader pinID,h.handles.close pinID⟩,⟨le_rfl,fun _ _ => rfl⟩⟩
  | reopen hreopen =>
    obtain ⟨hf,hreaders,hroot,-⟩ := h.file.reopen hreopen
    exact ⟨log,⟨hf,.start hreaders⟩,.of_root hroot log⟩

theorem SessionLogged.moves [Sha256] (h : SessionLogged s log) (hm : s.Moves s') :
    ∃ log', SessionLogged s' log' ∧ LogExtends s log s' log' := by
  induction hm with
  | refl => exact ⟨log,h,le_rfl,fun _ _ => rfl⟩
  | tail _ hmove ih =>
    obtain ⟨log1,h1,hext1⟩ := ih
    obtain ⟨log2,h2,hext2⟩ := h1.move hmove
    exact ⟨log2,h2,hext1.trans hext2⟩

theorem SessionLogged.create [Sha256] (maxCommits maxBytes : ℕ) (log : ℕ → CommitBatch) :
    SessionLogged (Session.start (File.create maxCommits maxBytes)) log :=
  ⟨.create maxCommits maxBytes log,.start rfl⟩

theorem Session.Reaches.logged [Sha256] {allowed : Session → Operation → Prop} (h : Session.Reaches allowed s) :
    ∃ log, SessionLogged s log := by
  refine h.invariant (I := fun s => ∃ log, SessionLogged s log) ?_ ?_
  · intro maxCommits maxBytes
    exact ⟨fun _ => ⟨0,zeroIdentifier,0,none,[]⟩,.create maxCommits maxBytes _⟩
  rintro s op ⟨log,hs⟩ -
  obtain ⟨log',hs',-⟩ := hs.moves (s.step_moves op)
  exact ⟨log',hs'⟩

end Meldbase.Logical
