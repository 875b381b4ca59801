import Meldbase.Logical.Delivery
import Meldbase.Logical.Retention

/-! # No reader loses history

Over every run of a session the retained log reaches back to the next commit of
every replay pin, running build and saved checkpoint, as long as no caller writes
checkpoints behind the log through the system-record interface.
-/
namespace Meldbase.Logical
open List Outcome

/-- The retained log has the next commit of every open replay pin, every saved
checkpoint and every build that has not failed. -/
structure RetentionFloor (s : Session) : Prop where
  pins : ∀ id pin, s.file.readers.find id = some pin → pin.replay = true →
    s.file.root.oldestRetainedSequence ≤ pin.sequence+1
  checkpoints : ∀ cs, durableConsumerCheckpoints s.file.root.catalogRoot = .ok cs →
    ∀ c ∈ cs, s.file.root.oldestRetainedSequence ≤ c.ack+1
  builds : ∀ id b, (openTree s.file.root.indexBuildCatalogRoot).find id = some b → b.phase ≠ .failed →
    s.file.root.oldestRetainedSequence ≤ b.appliedSequence+1

structure SessionOk [Sha256] (s : Session) (log : ℕ → CommitBatch) : Prop extends SessionLogged s log where
  served : s.file.root.Served

variable {s : Session} {log : ℕ → CommitBatch}

theorem SessionOk.floor [Sha256] (h : SessionOk s log) : RetentionFloor s where
  pins id pin hpin hreplay := (h.file.logged.pins id pin hpin hreplay).2
  checkpoints := h.served.checkpoints
  builds id b hb hphase := (h.served.builds id b hb hphase).2

/-! ### Consumers -/

theorem directoryRecords_kept (hacks : ∀ c ∈ cs, c.ack ≤ maxUint64)
    (hold : ∀ c ∈ cs, oldest ≤ c.ack+1) : WrittenCheckpointsKept (directoryRecords cs) oldest := by
  intro m hm _ _ decoded hdecoded c hc
  unfold directoryRecords at hm
  split at hm
  · rename_i encoded hencoded
    obtain rfl := mem_singleton.mp hm
    obtain ⟨hround,-⟩ := decode_encode_checkpoints hacks hencoded
    have hsame : decoded = orderedCheckpoints cs := by
      have : Except.ok decoded = Except.ok (orderedCheckpoints cs) := hdecoded.symm.trans hround
      cases this
      rfl
    rw [hsame] at hc
    exact hold c ((mem_insertionSort _).mp hc)
  · simp at hm

section Files
variable [Sha256] {f f' : File} {name : Bytes} (hf : FileLogged f log) (hserved : f.root.Served)
include hf hserved

theorem served_replaceCheckpoints (hacks : ∀ c ∈ cs, c.ack ≤ maxUint64)
    (hold : ∀ c ∈ cs, f.root.oldestRetainedSequence ≤ c.ack+1) (h : f.replaceDurableConsumerCheckpoints cs = .ok f') :
    f'.root.Served := by
  obtain ⟨_,_,-,-,hup⟩ := replaceDurableConsumerCheckpoints_ok h
  have holdest : f'.root.oldestRetainedSequence = f.root.oldestRetainedSequence := by
    rw [hup.file]
    exact WriteTxn.finalRoot_oldestRetainedSequence _ _
  refine Publication.served (p := .replaceCheckpoints cs) hf hserved h ?_
  rw [holdest]
  exact directoryRecords_kept hacks hold

theorem served_createConsumer {after position : ℕ}
    (h : f.createDurableCommitConsumer name after transactionID = .ok (f',position)) : f'.root.Served := by
  obtain ⟨cs,⟨hle,hretained⟩,hcs,-,hsaved⟩ := createDurableCommitConsumer_cases h
  have hmax := hf.sequence_le
  have holdest := hf.oldest_le
  rcases hsaved with ⟨hzero,hinitial,rfl⟩ | ⟨hreplace,rfl⟩
  · -- the first commit of the file
    obtain ⟨tx,root,batch,_,_,-,hup,-⟩ := createInitialDurableConsumer_ok hinitial
    have hfirst : f'.root.oldestRetainedSequence ≤ 1 := by
      have hle := hup.oldest_le
      have hfinal : f'.root.oldestRetainedSequence = root.oldestRetainedSequence := by
        rw [hup.file]
        exact WriteTxn.finalRoot_oldestRetainedSequence _ _
      omega
    refine Publication.served (p := .initialConsumer name transactionID) hf hserved hinitial (directoryRecords_kept ?_ ?_)
    · intro c hc
      obtain rfl := mem_singleton.mp hc
      exact (by decide : 1 ≤ maxUint64)
    intro c hc
    obtain rfl := mem_singleton.mp hc
    dsimp only
    omega
  have hmem : ∀ c ∈ cs ++ [⟨name,position⟩], c ∈ cs ∨ c = ⟨name,position⟩ := by
    intro c hc
    simpa using hc
  refine served_replaceCheckpoints hf hserved ?_ ?_ hreplace
  · intro c hc
    rcases hmem c hc with hc | rfl
    · exact durableConsumerCheckpoints_acks hcs c hc
    · exact hle.trans hmax
  intro c hc
  rcases hmem c hc with hc | rfl
  · exact hserved.checkpoints cs hcs c hc
  · dsimp only
    omega

theorem served_ack {sequence : ℕ} (hdelivered : consumer.delivered ≤ f.root.commitSequence)
    (h : f.ackDurableConsumer consumer sequence = .ok (f',consumer')) : f'.root.Served := by
  obtain ⟨-,hupper,cs,c,hcs,hfind,-,⟨-,rfl⟩ | ⟨hahead,hreplace⟩⟩ := ackDurableConsumer_cases h
  · exact hserved
  have hmax := hf.sequence_le
  have hstored := hserved.checkpoints cs hcs c (mem_of_find?_eq_some hfind)
  have hmem : ∀ d ∈ withAck cs consumer.name sequence, d.ack = sequence ∨ d ∈ cs := by
    intro d hd
    obtain ⟨e,he,rfl⟩ := mem_map.mp hd
    split_ifs
    · exact .inl rfl
    · exact .inr he
  refine served_replaceCheckpoints hf hserved ?_ ?_ hreplace
  · intro d hd
    rcases hmem d hd with hd | hd
    · omega
    · exact durableConsumerCheckpoints_acks hcs d hd
  intro d hd
  rcases hmem d hd with hd | hd
  · omega
  · exact hserved.checkpoints cs hcs d hd

theorem served_deleteConsumer (h : f.deleteDurableCommitConsumer name = .ok f') : f'.root.Served := by
  obtain ⟨cs,hcs,hreplace⟩ := deleteDurableCommitConsumer_cases h
  exact served_replaceCheckpoints hf hserved (fun c hc => durableConsumerCheckpoints_acks hcs c (mem_of_mem_filter hc))
    (fun c hc => hserved.checkpoints cs hcs c (mem_of_mem_filter hc)) hreplace

end Files

/-! ### Every operation -/

variable {s' : Session} {a : Answer} {name : Bytes} {f f' : File}

theorem openDurableCommitConsumer_root (h : f.openDurableCommitConsumer name position = .ok opened) : opened.1.root = f.root := by
  obtain ⟨⟨f1,pinID⟩,hadd,h⟩ := bind_eq_ok.mp h
  cases h
  rw [(addReaderPin_ok hadd).2]

theorem SessionOk.createConsumer [Sha256] {after : ℕ} (h : SessionOk s log)
    (hc : s.createConsumer name after transactionID = .ok (s',a)) : s'.file.root.Served := by
  obtain ⟨f,position,hcreate,hopen⟩ := Session.createConsumer_cases hc
  have hserved := served_createConsumer h.file h.served hcreate
  rcases hopen with rfl | ⟨f1,pinID,hadd,rfl⟩
  · exact hserved
  have hroot : f1.root = f.root := by rw [(addReaderPin_ok hadd).2]
  rw [← hroot] at hserved
  exact hserved

theorem SessionOk.ack [Sha256] {sequence : ℕ} (h : SessionOk s log) (ha : s.ack pinID sequence = .ok (s',a)) :
    s'.file.root.Served := by
  obtain ⟨consumer,f,consumer',hconsumer,hack,rfl⟩ := Session.ack_cases ha
  obtain ⟨hreader,hdelivered⟩ := h.handles.consumers pinID consumer hconsumer
  exact served_ack h.file h.served (hdelivered.trans_le (h.file.logged.pins pinID _ hreader rfl).1) hack

theorem SessionOk.consumerNext_root [Sha256] (h : SessionOk s log) (hn : s.consumerNext pinID = .ok (s',a)) :
    s'.file.root = s.file.root := by
  unfold Session.consumerNext at hn
  split at hn
  · cases hn
  rename_i consumer hconsumer
  obtain ⟨hreader,hdelivered⟩ := h.handles.consumers pinID consumer hconsumer
  rcases consumerNext_spec (h.file.serves hreader) hreader hdelivered.le with ⟨-,hnext⟩ | ⟨-,hnext⟩
  · rw [hnext,ok_bind] at hn
    cases hn
    rfl
  rw [hnext,ok_bind] at hn
  cases hn
  rfl

/-- A caller that asks for a publication writes no checkpoint behind the log which
that publication leaves. -/
def CheckpointsKept [Sha256] (s : Session) (op : Operation) : Prop :=
  ∀ p, op = .publish p → ∀ f, p.val.apply s.file = .ok f →
    WrittenCheckpointsKept p.val.systemRecords f.root.oldestRetainedSequence

theorem SessionOk.perform [Sha256] (h : SessionOk s log)
    (hkept : CheckpointsKept s op) (hp : s.perform op = .ok (s',a)) : ∃ log', SessionOk s' log' := by
  obtain ⟨log',hlogged,-⟩ := h.moves (Session.perform_moves hp)
  have hsame (hroot : s'.file.root = s.file.root) : s'.file.root.Served := by
    rw [hroot]
    exact h.served
  have hreads (hop : op.reads) : s'.file.root.Served := hsame (Session.perform_reads hop hp).2
  refine ⟨log',hlogged,?_⟩
  cases op with
  | publish p =>
    obtain ⟨f,happly,hp⟩ := bind_eq_ok.mp hp
    cases hp
    exact Publication.served h.file h.served happly (hkept p rfl f happly)
  | createConsumer name after transactionID => exact h.createConsumer hp
  | openConsumer name =>
    obtain ⟨position,-,hp⟩ := bind_eq_ok.mp hp
    obtain ⟨opened,hopen,hp⟩ := bind_eq_ok.mp hp
    cases hp
    exact hsame (openDurableCommitConsumer_root hopen)
  | consumerNext pinID => exact hsame (h.consumerNext_root hp)
  | ack pinID sequence => exact h.ack hp
  | deleteConsumer name =>
    obtain ⟨f,hdelete,hp⟩ := bind_eq_ok.mp hp
    cases hp
    exact served_deleteConsumer h.file h.served hdelete
  | close pinID =>
    cases hp
    exact h.served
  | reopen maxCommits maxBytes =>
    obtain ⟨f,hreopen,hp⟩ := bind_eq_ok.mp hp
    cases hp
    exact hsame (h.file.reopen hreopen).2.2.1
  | _ => exact hreads trivial

theorem SessionOk.step [Sha256] (h : SessionOk s log)
    (hkept : CheckpointsKept s op) : ∃ log', SessionOk (s.step op) log' := by
  unfold Session.step
  split
  · rename_i s' a hp
    exact h.perform hkept hp
  · exact ⟨log,h⟩

theorem Session.Reaches.ok [Sha256] {allowed : Session → Operation → Prop} (h : Session.Reaches allowed s)
    (hallowed : ∀ s op, allowed s op → CheckpointsKept s op) : ∃ log, SessionOk s log := by
  refine h.invariant (I := fun s => ∃ log, SessionOk s log) ?_ ?_
  · intro maxCommits maxBytes
    refine ⟨fun _ => ⟨0,zeroIdentifier,0,none,[]⟩,.create maxCommits maxBytes _,?_,fun _ _ _ _ => Nat.zero_le _⟩
    intro id b hfind
    exact absurd hfind (by simp [Session.start,File.create,DatabaseRoot.empty])
  · rintro s op ⟨log,hs⟩ hop
    exact hs.step (hallowed s op hop)

/-! ### What readers observe -/

structure HistoryKept [Sha256] (s : Session) : Prop where
  streams : ∀ id stream, s.streams.find id = some stream →
    (∃ s' b, s.perform (.streamNext id) = .ok (s',.batch b) ∧ b.sequence = stream.after+1) ∨
      (stream.after = s.file.root.commitSequence ∧ s.perform (.streamNext id) = .ok (s,.waiting))
  consumers : ∀ id consumer, s.consumers.find id = some consumer →
    (∃ s' b, s.perform (.consumerNext id) = .ok (s',.batch b) ∧ b.sequence = consumer.stream.after+1) ∨
      (consumer.stream.after = s.file.root.commitSequence ∧ s.perform (.consumerNext id) = .ok (s,.waiting))
  opening : ∀ name, s.perform (.openConsumer name) ≠ .error .historyLost
  catchUp : ∀ batch, s.file.applyIndexBuildCatchUpBatch batch ≠ .error .buildHistoryLost
  catchUpSnapshot : ∀ buildID, s.perform (.openIndexBuildCatchUp buildID) ≠ .error .buildHistoryLost

theorem SessionOk.streams_served [Sha256] (h : SessionOk s log) {id : ℕ} (hstream : s.streams.find id = some stream) :
    (∃ s' b, s.perform (.streamNext id) = .ok (s',.batch b) ∧ b.sequence = stream.after+1) ∨
      (stream.after = s.file.root.commitSequence ∧ s.perform (.streamNext id) = .ok (s,.waiting)) := by
  have hreader := h.handles.streams id stream hstream
  obtain ⟨-,hold⟩ := h.file.logged.pins id _ hreader rfl
  simp only [Session.perform,Session.streamNext,hstream]
  rcases streamNext_spec (h.file.serves hreader) hreader with ⟨hseq,hnext⟩ | ⟨hlt,hnext⟩
  · rw [hnext]
    exact .inr ⟨hseq,rfl⟩
  have hbatch := (h.file.logged.holds.batch (stream.after+1) (by omega) hold (by omega)).sequence_eq
  rw [hnext]
  exact .inl ⟨_,_,rfl,hbatch⟩

theorem SessionOk.consumers_served [Sha256] (h : SessionOk s log) {id : ℕ}
    (hconsumer : s.consumers.find id = some consumer) :
    (∃ s' b, s.perform (.consumerNext id) = .ok (s',.batch b) ∧ b.sequence = consumer.stream.after+1) ∨
      (consumer.stream.after = s.file.root.commitSequence ∧ s.perform (.consumerNext id) = .ok (s,.waiting)) := by
  obtain ⟨hreader,hdelivered⟩ := h.handles.consumers id consumer hconsumer
  obtain ⟨-,hold⟩ := h.file.logged.pins id _ hreader rfl
  simp only [Session.perform,Session.consumerNext,hconsumer]
  rcases consumerNext_spec (h.file.serves hreader) hreader hdelivered.le with ⟨hseq,hnext⟩ | ⟨hlt,hnext⟩
  · rw [hnext]
    exact .inr ⟨hseq,rfl⟩
  have hbatch := (h.file.logged.holds.batch (consumer.stream.after+1) (by omega) hold (by omega)).sequence_eq
  rw [hnext]
  exact .inl ⟨_,_,rfl,hbatch⟩

theorem decodeCheckpoints_ne_error :
    decodeCheckpoints n previous encoded ≠ .error .historyLost := by
  induction n generalizing previous encoded with
  | zero =>
    unfold decodeCheckpoints
    split_ifs <;> simp
  | succ n ih =>
    cases encoded with
    | nil => simp [decodeCheckpoints]
    | cons length rest =>
      unfold decodeCheckpoints
      refine guard_ne_error (by decide) (fun _ => ?_)
      refine guard_ne_error (by decide) (fun _ => ?_)
      exact bind_ne_error ih (fun _ _ => by simp)

theorem durableConsumerCheckpoints_ne_error :
    durableConsumerCheckpoints root ≠ .error .historyLost := by
  unfold durableConsumerCheckpoints
  split
  · simp
  unfold decodeDurableConsumerCheckpoints
  refine guard_ne_error (by decide) (fun _ => ?_)
  exact guard_ne_error (by decide) (fun _ => decodeCheckpoints_ne_error)

theorem SessionOk.opening_served [Sha256] (h : SessionOk s log) (name : Bytes) :
    s.perform (.openConsumer name) ≠ .error .historyLost := by
  have hmax := h.file.sequence_le
  have hposition : s.file.durableConsumerPosition name ≠ .error .historyLost := by
    unfold File.durableConsumerPosition
    refine guard_ne_error (by decide) (fun _ => ?_)
    refine bind_ne_error durableConsumerCheckpoints_ne_error (fun cs hcs => ?_)
    split
    · simp
    rename_i c hfind
    have hkept := h.served.checkpoints cs hcs c (mem_of_find?_eq_some hfind)
    refine bind_ne_error ?_ (fun _ _ => by simp)
    unfold retainedConsumerPosition
    refine guard_ne_error (by decide) (fun hle => ?_)
    rw [if_neg]
    · simp
    · simp only [Bool.and_eq_true,Bool.or_eq_true,decide_eq_true_eq]
      omega
  refine bind_ne_error hposition (fun position _ => ?_)
  refine bind_ne_error ?_ (fun _ _ => by simp)
  unfold File.openDurableCommitConsumer File.addReaderPin
  refine bind_ne_error ?_ (fun _ _ => by simp)
  exact guard_ne_error (by decide) (fun _ => by simp)

theorem secondaryKey_ne_error (key : Bytes) (position : ℕ) (id : Identifier) :
    secondaryKey key position id ≠ .error .buildHistoryLost := by
  unfold secondaryKey
  refine guard_ne_error (by decide) (fun _ => ?_)
  exact guard_ne_error (by decide) (fun _ => by simp)

theorem refPosition_ne_error (ref : Option DocumentVersionRef) (id : Identifier) (absent : Bool) :
    refPosition ref id absent ≠ .error .buildHistoryLost := by
  unfold refPosition versionPosition
  split
  · refine guard_ne_error (by decide) (fun _ => ?_)
    split <;> simp
  · split_ifs <;> simp

theorem catchUpChange_ne_error (collectionID sequence : ℕ) (work : CatchUpWork) (change : CommitChange) :
    catchUpChange collectionID sequence work change ≠ .error .buildHistoryLost := by
  have hremove : ∀ (w : CatchUpWork) scalar position id,
      removeShadowKey w scalar position id ≠ .error .buildHistoryLost := by
    intro w scalar position id
    unfold removeShadowKey
    split_ifs
    · simp
    · refine bind_ne_error (secondaryKey_ne_error _ _ _) (fun _ _ => ?_)
      exact guard_ne_error (by decide) (fun _ => by simp)
  have hadd : ∀ (w : CatchUpWork) scalar position id,
      addShadowKey w scalar position id ≠ .error .buildHistoryLost := by
    intro w scalar position id
    unfold addShadowKey
    split_ifs
    · simp
    · refine bind_ne_error (secondaryKey_ne_error _ _ _) (fun _ _ => ?_)
      exact guard_ne_error (by decide) (fun _ => by simp)
  unfold catchUpChange
  split_ifs
  · simp
  split
  · simp
  refine guard_ne_error (by decide) (fun _ => ?_)
  refine bind_ne_error (refPosition_ne_error _ _ _) (fun _ _ => ?_)
  refine bind_ne_error (refPosition_ne_error _ _ _) (fun _ _ => ?_)
  refine guard_ne_error (by decide) (fun _ => ?_)
  exact bind_ne_error (hremove _ _ _ _) (fun _ _ => hadd _ _ _ _)

theorem catchUpCommits_ne_error {sequence : ℕ}
    (h : LogHolds tree oldest latest log) (hpos : 0 < sequence)
    (hlo : oldest ≤ sequence) (hhi : sequence+n ≤ latest+1) :
    catchUpCommits tree oldest collectionID sequence n work through ≠ .error .buildHistoryLost := by
  induction n generalizing sequence work through with
  | zero => simp [catchUpCommits]
  | succ n ih =>
    rw [catchUpCommits,h.readCommit_eq hpos hlo (by omega)]
    refine guard_ne_error (by decide) (fun _ => ?_)
    refine bind_ne_error (foldlM_ne_error (fun _ _ _ => catchUpChange_ne_error _ _ _ _) _)
      (fun _ _ => ih (by omega) (by omega) (by omega))

theorem updateAdvance_ne_error
    {build : WriteTxn → Except StorageError (WriteTxn × DatabaseRoot)} (he : Storage.StorageError.corrupt ≠ e)
    (hbuild : build (f.beginUpdate advance) ≠ .error e) : f.updateAdvance advance build ≠ .error e := by
  unfold File.updateAdvance
  refine guard_ne_error he (fun _ => ?_)
  refine bind_ne_error hbuild (fun _ _ => ?_)
  refine guard_ne_error he (fun _ => ?_)
  exact guard_ne_error he (fun _ => by simp)

theorem putBuild_ne_error (tx : WriteTxn) (build : IndexBuildMeta) : putBuild tx build ≠ .error .buildHistoryLost := by
  unfold putBuild encodeIndexBuildMeta
  refine bind_ne_error ?_ (fun _ _ => by simp)
  split
  · simp
  · exact guard_ne_error (by decide) (fun _ => by simp)

theorem findBuild_ne_error (base : DatabaseRoot) (buildID : Identifier) :
    findBuild base buildID ≠ .error .buildHistoryLost := by
  unfold findBuild
  split <;> simp

theorem DatabaseRoot.Served.running_build (h : f.root.Served) (hbuild : findBuild f.root buildID = .ok build)
    (hphase : build.phase = .catchUp ∨ build.phase = .ready) :
    build.appliedSequence ≤ f.root.commitSequence ∧ f.root.oldestRetainedSequence ≤ build.appliedSequence+1 := by
  obtain ⟨record,hrecord,rfl⟩ := findBuild_ok hbuild
  apply h.builds buildID record hrecord
  rcases hphase with hphase | hphase
  · have : record.phase = .catchUp := hphase
    simp [this]
  · have : record.phase = .ready := hphase
    simp [this]

theorem SessionOk.catchUp_served [Sha256] (h : SessionOk s log) (batch : IndexBuildCatchUpBatch) :
    s.file.applyIndexBuildCatchUpBatch batch ≠ .error .buildHistoryLost := by
  unfold File.applyIndexBuildCatchUpBatch
  refine guard_ne_error (by decide) (fun _ => updateAdvance_ne_error (by decide) ?_)
  unfold applyCatchUpBatch
  refine bind_ne_error (findBuild_ne_error _ _) (fun build hbuild => ?_)
  refine guard_ne_error (by decide) (fun hallowed => ?_)
  simp only [catchUpAllowed,Bool.not_eq_true',Bool.not_eq_false,Bool.and_eq_true,Bool.or_eq_true,
    decide_eq_true_eq] at hallowed
  obtain ⟨⟨⟨⟨⟨hphase,-⟩,hlt⟩,hle⟩,-⟩,-⟩ := hallowed
  obtain ⟨happlied,hold⟩ := h.served.running_build hbuild hphase
  have hthrough : batch.throughSequence ≤ s.file.root.commitSequence := hle
  have hzero := h.file.logged.zero
  have hbase : (s.file.beginUpdate 0).baseRoot = s.file.root := rfl
  rw [hbase,if_neg]
  · refine bind_ne_error (catchUpCommits_ne_error h.file.logged.holds (by omega) hold (by omega)) (fun _ _ => ?_)
    exact guard_ne_error (by decide) (fun _ => putBuild_ne_error _ _)
  · simp only [Bool.or_eq_true,decide_eq_true_eq]
    omega

theorem SessionOk.catchUpSnapshot_served [Sha256] (h : SessionOk s log)
    (buildID : Identifier) : s.perform (.openIndexBuildCatchUp buildID) ≠ .error .buildHistoryLost := by
  refine bind_ne_error ?_ (fun _ _ => by simp)
  unfold File.openIndexBuildCatchUpSnapshot
  refine guard_ne_error (by decide) (fun _ => ?_)
  refine bind_ne_error (findBuild_ne_error _ _) (fun build hbuild => ?_)
  refine guard_ne_error (by decide) (fun hphase => ?_)
  simp only [Bool.and_eq_true,decide_eq_true_eq,not_and,not_not] at hphase
  have hrunning : build.phase = .catchUp ∨ build.phase = .ready := by
    by_cases hc : build.phase = .catchUp
    · exact .inl hc
    · exact .inr (hphase hc)
  obtain ⟨happlied,hold⟩ := h.served.running_build hbuild hrunning
  have hzero := h.file.logged.zero
  rw [if_neg]
  · unfold File.addReaderPin
    refine bind_ne_error ?_ (fun _ _ => by simp)
    exact guard_ne_error (by decide) (fun _ => by simp)
  · simp only [Bool.or_eq_true,Bool.and_eq_true,decide_eq_true_eq]
    omega

theorem SessionOk.historyKept [Sha256] (h : SessionOk s log) : HistoryKept s where
  streams _ _ hstream := h.streams_served hstream
  consumers _ _ hconsumer := h.consumers_served hconsumer
  opening := h.opening_served
  catchUp := h.catchUp_served
  catchUpSnapshot := h.catchUpSnapshot_served

/-! ### The run theorem -/

theorem Publication.systemRecords_nodup [Sha256] {p : Publication} (h : p.apply f = .ok f') :
    (p.systemRecords.map SystemRecordMutation.key).Nodup := by
  have hdirectory : ∀ cs, ((directoryRecords cs).map SystemRecordMutation.key).Nodup := by
    intro cs
    unfold directoryRecords
    split <;> simp
  cases p with
  | documents t records =>
    obtain ⟨_,_,_,_,_,_,_,-,hnodup,-⟩ := applyDocumentTransaction_ok h
    exact hnodup
  | replaceCheckpoints cs => exact hdirectory cs
  | initialConsumer name transactionID => exact hdirectory _
  | _ => simp [Publication.systemRecords]

theorem Publication.written_directory [Sha256] {p : Publication} (h : p.apply f = .ok f') (hm : m ∈ p.systemRecords)
    (hkey : m.key = durableConsumerKey)
    (hdelete : m.delete = false) :
    durableConsumerCheckpoints f'.root.catalogRoot = decodeDurableConsumerCheckpoints m.newValue := by
  have hfind : p.systemRecords.find? (fun m => m.key = durableConsumerKey) = some m := by
    have hnodup := Publication.systemRecords_nodup h
    rw [List.find?_eq_some_iff_append]
    obtain ⟨before,after,hsplit⟩ := append_of_mem hm
    refine ⟨by simpa using hkey,before,after,hsplit,?_⟩
    intro m' hm'
    rw [hsplit,map_append,map_cons,nodup_append] at hnodup
    have hne := hnodup.2.2 m'.key (mem_map_of_mem hm') m.key mem_cons_self
    rw [hkey] at hne
    simpa using hne
  have hafter := Publication.systemRecord_after h durableConsumerKey
  rw [recordAfter,hfind] at hafter
  simp only [hdelete,Bool.false_eq_true,if_false] at hafter
  unfold durableConsumerCheckpoints
  rw [hafter]

theorem SessionOk.floor_step_iff [Sha256] (h : SessionOk s log) (op : Operation) :
    RetentionFloor (s.step op) ↔ CheckpointsKept s op := by
  constructor
  · rintro hfloor p rfl f happly m hm hkey hdelete cs hcs
    have hstep : s.step (.publish p) = { s with file := f } := by
      simp only [Session.step,Session.perform,happly,ok_bind]
    rw [hstep] at hfloor
    exact hfloor.checkpoints cs ((Publication.written_directory happly hm hkey hdelete).trans hcs)
  intro hkept
  obtain ⟨log',hs⟩ := h.step hkept
  exact hs.floor

/-- No record that the caller writes under the key of the consumer directory decodes to checkpoints. -/
def Operation.WritesNoCheckpoint (op : Operation) : Prop :=
  ∀ p, op = .publish p → ∀ m ∈ p.val.systemRecords, m.key = durableConsumerKey → m.delete = false →
    ∀ cs, decodeDurableConsumerCheckpoints m.newValue = .ok cs → cs = []

theorem Operation.WritesNoCheckpoint.kept [Sha256] (h : op.WritesNoCheckpoint) (s : Session) : CheckpointsKept s op := by
  intro p hp f _ m hm hkey hdelete cs hcs c hc
  rw [h p hp m hm hkey hdelete cs hcs] at hc
  cases hc

/-- In every run whose callers write no checkpoint through the record interface, the
log has what every reader needs next and no reader observes lost history.  From such
a state a step keeps the log sufficient exactly when it writes no checkpoint behind
the log that it leaves. -/
theorem retention_keeps_needed_history [Sha256] {s : Session} (hs : Session.Reaches (fun _ op => op.WritesNoCheckpoint) s) :
    (RetentionFloor s ∧ HistoryKept s) ∧ ∀ op, RetentionFloor (s.step op) ↔ CheckpointsKept s op := by
  obtain ⟨log,hok⟩ := hs.ok fun s _ h => h.kept s
  exact ⟨⟨hok.floor,hok.historyKept⟩,hok.floor_step_iff⟩

/-! ### A checkpoint written behind the log -/

def exampleTransaction : Identifier := .filled 1
def createLetter (letter : Byte) : Operation := .publish ⟨.createCollection exampleTransaction 0 [letter],rfl⟩

open scoped OwnDigest

def streamingSession : Session :=
  ((Session.start (File.create 1 0)).step (createLetter 97)).step (.openStream 0)

theorem createLetter_writesNoCheckpoint (letter : Byte) : (createLetter letter).WritesNoCheckpoint := by
  rintro p hp m hm
  cases hp
  simp [Publication.systemRecords] at hm

/-- A stream opened before the next commits pins them even when the window is one commit. -/
theorem retention_keeps_needed_history_stream : streamingSession.file.readers.find 1 = some ⟨0,true⟩ ∧
      (streamingSession.step (createLetter 98)).file.root.oldestRetainedSequence = 1 ∧
      (RetentionFloor streamingSession ∧ HistoryKept streamingSession) ∧
      RetentionFloor (streamingSession.step (createLetter 98)) := by
  have hreached : Session.Reaches (fun _ op => op.WritesNoCheckpoint) streamingSession := by
    refine .step _ (.step _ (.create 1 0) (createLetter_writesNoCheckpoint _)) ?_
    intro p hp
    cases hp
  obtain ⟨hkept,hstep⟩ := retention_keeps_needed_history hreached
  exact ⟨by decide +kernel,by decide +kernel,hkept,(hstep _).mpr ((createLetter_writesNoCheckpoint _).kept _)⟩

def staleDirectory : Bytes := durableConsumerMagic ++ [3,0,1,0,0,0,0,0,1,97,1,0,0,0,0,0,0,0]

/-- Three commits under a window of one, then that directory through the record interface. -/
def staleSession : Session :=
  [createLetter 97,createLetter 98,createLetter 99,
    .publish ⟨.systemRecord exampleTransaction 0 ⟨durableConsumerKey,false,none,staleDirectory,false,false⟩,rfl⟩].foldl
      Session.step (Session.start (File.create 1 0))

/-- The record interface accepts the private directory key, so a caller can save a
checkpoint whose next commit is already gone: the consumer then cannot be opened
and no later commit succeeds. -/
theorem checkpoint_written_behind_log : Session.Reaches (fun _ _ => True) staleSession ∧
      staleSession.file.root.oldestRetainedSequence = 4 ∧
      (durableConsumerCheckpoints staleSession.file.root.catalogRoot).toOption = some [⟨[97],1⟩] ∧
      ¬ RetentionFloor staleSession ∧
      (match staleSession.perform (.openConsumer [97]) with | .error e => e = .historyLost | .ok _ => False) ∧
      (match staleSession.perform (createLetter 100) with | .error e => e = .corrupt | .ok _ => False) := by
  have holdest : staleSession.file.root.oldestRetainedSequence = 4 := by decide +kernel
  have hdirectory : (durableConsumerCheckpoints staleSession.file.root.catalogRoot).toOption = some [⟨[97],1⟩] := by
    decide +kernel
  refine ⟨?_,holdest,hdirectory,?_,?_,?_⟩
  · exact (Session.Reaches.create 1 0).foldl _
  · intro hfloor
    cases hcs : durableConsumerCheckpoints staleSession.file.root.catalogRoot with
    | error e =>
      rw [hcs] at hdirectory
      cases hdirectory
    | ok cs =>
      rw [hcs] at hdirectory
      have hlist : cs = [⟨[97],1⟩] := Option.some.inj hdirectory
      have hkept := hfloor.checkpoints cs hcs ⟨[97],1⟩ (by rw [hlist]; exact mem_singleton_self _)
      rw [holdest] at hkept
      exact absurd hkept (by decide)
  · rfl
  · rfl

end Meldbase.Logical
