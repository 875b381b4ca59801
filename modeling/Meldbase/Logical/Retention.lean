import Meldbase.Logical.History

/-! # Retention never outruns a reader

Besides the next commit of every replay pin, the commit log keeps that of every build
that has not failed and of every saved consumer checkpoint.  The limit of the last
cut says so for the file that a publication started from; what the publication
writes is compared with it.
-/
namespace Meldbase.Logical
open SortedMap Outcome Bool

/-! ### What the builds and checkpoints of a root need -/

/-- A log that starts at `oldest` still has what the builds and checkpoints of `base`
need next. -/
structure Needs (base : DatabaseRoot) (oldest latest : ℕ) : Prop where
  builds : ∀ id b, (openTree base.indexBuildCatalogRoot).find id = some b → b.phase ≠ .failed →
    b.appliedSequence ≤ latest ∧ oldest ≤ b.appliedSequence+1
  checkpoints : ∀ cs, durableConsumerCheckpoints base.catalogRoot = .ok cs → ∀ c ∈ cs, oldest ≤ c.ack+1

def DatabaseRoot.Served (root : DatabaseRoot) : Prop := Needs root root.oldestRetainedSequence root.commitSequence

variable {f f' : File} {base root : DatabaseRoot} {tx : WriteTxn} {log : ℕ → CommitBatch} {p : Publication}

theorem CutWithin.needs (h : CutWithin f root) (hserved : f.root.Served) (hseq : f.root.commitSequence ≤ root.commitSequence)
    (hold : root.oldestRetainedSequence ≤ root.commitSequence) :
    Needs f.root root.oldestRetainedSequence root.commitSequence := by
  obtain ⟨oldest,limit,hlimit,hkeep⟩ := h
  constructor
  · intro id b hb hphase
    have hbound := (hserved.builds id b hb hphase).1
    have hkept := hlimit.builds id b hb hphase
    omega
  intro cs hcs c hc
  obtain ⟨cs',hcs',hall⟩ := hlimit.checkpoints
  rw [hcs] at hcs'
  cases hcs'
  exact hkeep.trans (hall c hc).2

theorem Publication.needs_kept [Sha256] (hf : FileLogged f log) (hserved : f.root.Served) (h : p.apply f = .ok f') :
    Needs f.root f'.root.oldestRetainedSequence f'.root.commitSequence := by
  obtain ⟨advance,tx,root,done,hup,hcommits⟩ := Publication.commits h
  obtain ⟨log',hc⟩ := hcommits.committed hf.logged hf.written
  have hseq := hc.sequence
  have hneeds : Needs f.root root.oldestRetainedSequence root.commitSequence := by
    rcases hc.cut with ⟨rfl,hold⟩ | hcut
    · rw [hold,hseq]
      exact hserved
    · exact hcut.needs hserved (by omega) (by rw [hup.sequence]; exact hup.oldest_le)
  rw [hup.file]
  simpa [File.publish] using hneeds

/-! ### Groups -/

structure GroupStaged (f : File) (acc : WriteTxn × DatabaseRoot) : Prop where
  base : acc.1.baseRoot = f.root
  unchanged : acc.1.indexBuildCatalogChanged = false
  system : (openCatalog acc.2.catalogRoot).system = (openCatalog f.root.catalogRoot).system

theorem publish_system {sequence : ℕ} {entries : List (Bytes × CollectionWriteState)}
    (h : entries.foldlM (publishCollection sequence) (catalog,changes) = .ok (published,changes')) :
    published.system = catalog.system := by
  have hstep : ∀ acc, ∀ e ∈ entries, ∀ acc' : Catalog × List CommitChange, acc.1.system = catalog.system →
      publishCollection sequence acc e = .ok acc' → acc'.1.system = catalog.system :=
    fun acc e _ acc' hacc hs => (publishCollection_system hs).trans hacc
  exact foldlM_invariant (I := fun acc => acc.1.system = catalog.system) hstep rfl h

theorem DocumentsApplied.system_eq [Sha256] {t : DocumentTransaction}
    (h : DocumentsApplied tx base t [] tx' root work states published catalog changes) :
    (openCatalog root.catalogRoot).system = (openCatalog base.catalogRoot).system := by
  have hcatalog := h.system
  cases hcatalog
  rw [h.appends.catalog,openCatalog_some]
  exact publish_system h.publish

theorem groupStep_staged [Sha256] (h : GroupStaged f acc) (hs : groupStep acc t = .ok acc') : GroupStaged f acc' := by
  unfold groupStep at hs
  obtain ⟨-,hs⟩ := guard_eq_ok.mp hs
  obtain ⟨work,states,published,catalog,changes,hd⟩ := applyDocuments_ok hs
  have htx := hd.appends.txn
  refine ⟨?_,?_,hd.system_eq.trans h.system⟩
  · rw [htx]
    exact h.base
  · rw [htx]
    exact h.unchanged

theorem applyDocumentTransactionGroup_ok [Sha256] (h : f.applyDocumentTransactionGroup ts = .ok f') :
    ∃ tx root, Updated f ts.length tx root f' ∧ GroupStaged f (tx,root) := by
  unfold File.applyDocumentTransactionGroup at h
  obtain ⟨-,h⟩ := guard_eq_ok.mp h
  obtain ⟨tx,root,hbuilt,hup⟩ := updateAdvance_ok h
  have hstart : GroupStaged f (f.beginUpdate ts.length,f.root) := ⟨rfl,rfl,rfl⟩
  have hstep : ∀ acc, ∀ t ∈ ts, ∀ acc', GroupStaged f acc → groupStep acc t = .ok acc' → GroupStaged f acc' :=
    fun acc t _ acc' hacc hs => groupStep_staged hacc hs
  exact ⟨tx,root,hup,foldlM_invariant (I := GroupStaged f) hstep hstart hbuilt⟩

/-! ### Builds and checkpoints after a publication -/

theorem Updated.builds_unchanged
    (h : Updated f advance tx root f') (hbase : tx.baseRoot = f.root) (htx : tx.indexBuildCatalogChanged = false) :
    f'.root.indexBuildCatalogRoot = f.root.indexBuildCatalogRoot := by
  rw [h.file]
  simp [File.publish,WriteTxn.finalRoot,htx,hbase]

theorem Updated.builds_changed (h : Updated f advance tx root f') (htx : tx.indexBuildCatalogChanged = true) :
    f'.root.indexBuildCatalogRoot = root.indexBuildCatalogRoot := by
  rw [h.file]
  simp [File.publish,WriteTxn.finalRoot,htx]

def BuildsFollow (old new : DatabaseRoot) : Prop :=
  ∀ id b', (openTree new.indexBuildCatalogRoot).find id = some b' → b'.phase ≠ .failed →
    b'.appliedSequence = new.commitSequence ∨
      ∃ b, (openTree old.indexBuildCatalogRoot).find id = some b ∧ b.phase ≠ .failed ∧
        b.appliedSequence ≤ b'.appliedSequence ∧
        (b'.appliedSequence = b.appliedSequence ∨ b'.appliedSequence ≤ new.commitSequence)

theorem BuildsFollow.of_eq (h : new.indexBuildCatalogRoot = old.indexBuildCatalogRoot) :
    BuildsFollow old new := by
  intro id b hb hphase
  rw [h] at hb
  exact .inr ⟨b,hb,hphase,le_rfl,.inl rfl⟩

theorem find_withoutBuild (builds : Root Identifier IndexBuildMeta) (buildID id : Identifier) :
    (openTree (withoutBuild builds buildID)).find id =
      if id = buildID then none else (openTree builds).find id := by
  rw [← find_erase]
  unfold withoutBuild
  dsimp only
  split_ifs with hsize
  · rw [size_eq_zero.mp hsize]
    rfl
  · rfl

theorem BuildsFollow.of_withoutBuild
    (h : new.indexBuildCatalogRoot = withoutBuild old.indexBuildCatalogRoot buildID) : BuildsFollow old new := by
  intro id b hb hphase
  rw [h,find_withoutBuild] at hb
  split_ifs at hb
  exact .inr ⟨b,hb,hphase,le_rfl,.inl rfl⟩

/-- A build catalog with one changed record. -/
theorem BuildPut.follow (h : BuildPut tx0 build stored tx root) (hbase : tx0.baseRoot = f.root) (hup : Updated f 0 tx root f')
    (hbuild : build.phase ≠ .failed → build.appliedSequence = f.root.commitSequence ∨
      ∃ b, (openTree f.root.indexBuildCatalogRoot).find build.buildID = some b ∧ b.phase ≠ .failed ∧
        b.appliedSequence ≤ build.appliedSequence ∧
        (build.appliedSequence = b.appliedSequence ∨ build.appliedSequence ≤ f.root.commitSequence)) :
    BuildsFollow f.root f'.root := by
  intro id b hb hphase
  rw [hup.builds_changed (by rw [h.txn]),h.root_eq,hbase,openTree_some,find_insert] at hb
  rw [hup.commitSequence,Nat.add_zero]
  split_ifs at hb with hid
  · obtain ⟨-,fields,-,hstored⟩ := encodeIndexBuildMeta_ok h.encoded
    cases hb
    rw [hstored] at hphase ⊢
    rw [hid]
    exact hbuild hphase
  · exact .inr ⟨b,hb,hphase,le_rfl,.inl rfl⟩

theorem Appends.builds_unchanged (ha : Appends tx0 base batch tx root) (hup : Updated f advance tx root f')
    (hbase : tx0.baseRoot = f.root) (hchanged : tx0.indexBuildCatalogChanged = false) :
    f'.root.indexBuildCatalogRoot = f.root.indexBuildCatalogRoot := by
  have htx := ha.txn
  exact hup.builds_unchanged (by rw [htx]; exact hbase) (by rw [htx]; exact hchanged)

theorem Publication.builds_follow [Sha256] (h : p.apply f = .ok f') : BuildsFollow f.root f'.root := by
  cases p with
  | documents t records =>
    obtain ⟨tx,root,_,_,_,_,_,hup,-,hd⟩ := applyDocumentTransaction_ok h
    exact .of_eq (hd.appends.builds_unchanged hup rfl rfl)
  | group ts =>
    obtain ⟨tx,root,hup,hg⟩ := applyDocumentTransactionGroup_ok h
    exact .of_eq (hup.builds_unchanged hg.base hg.unchanged)
  | createCollection transactionID committedAt name =>
    obtain ⟨tx,root,batch,hup,ha,-⟩ := applyCreateCollection_ok h
    exact .of_eq (ha.builds_unchanged hup rfl rfl)
  | createIndex t =>
    obtain ⟨tx,root,_,_,_,_,_,_,_,_,_,hup,-,-,hc⟩ := applyCreateIndex_ok h
    exact .of_eq (Appends.builds_unchanged hc.appends hup rfl rfl)
  | systemRecord transactionID committedAt m =>
    obtain ⟨tx,root,batch,_,hup,ha,-⟩ := applySystemRecordTransaction_ok h
    exact .of_eq (ha.builds_unchanged hup rfl rfl)
  | replicationNoop transactionID committedAt =>
    obtain ⟨tx,root,batch,hup,ha,-⟩ := applyReplicationNoop_ok h
    exact .of_eq (ha.builds_unchanged hup rfl rfl)
  | retainCommitsFrom keepFrom transactionID committedAt =>
    obtain ⟨tx,root,_,_,_,_,_,_,hup,hr⟩ := retainCommitsFrom_ok h
    have htx := pruneCommitTree_txn hr.prune
    exact .of_eq (hup.builds_unchanged (by rw [htx]; rfl) (by rw [htx]; rfl))
  | beginIndexBuild t =>
    obtain ⟨tx0,tx,root,_,_,_,hup,-,-,htx,hput⟩ := beginIndexBuild_ok h
    exact hput.follow (by rw [htx]; rfl) hup (fun _ => .inl rfl)
  | scanBatch batch =>
    obtain ⟨tx,root,build,_,work,_,hup,hs,hput⟩ := applyIndexBuildScanBatch_ok h
    obtain ⟨record,hrecord,rfl⟩ := findBuild_ok hs.build_eq
    have hallowed := hs.allowed
    simp only [scanBatchAllowed,and_eq_true,decide_eq_true_eq] at hallowed
    have hphase : record.phase = .scan := hallowed.1.1.1.1
    refine hput.follow rfl hup (fun _ => .inr ⟨record,hrecord,?_,le_rfl,.inl rfl⟩)
    rw [hphase]
    decide
  | catchUpBatch batch =>
    obtain ⟨tx0,tx,root,build,work,through,_,hup,hc,htx,hput⟩ := applyIndexBuildCatchUpBatch_ok h
    obtain ⟨record,hrecord,rfl⟩ := findBuild_ok hc.build_eq
    have hallowed := hc.allowed
    simp only [catchUpAllowed,and_eq_true,or_eq_true,decide_eq_true_eq] at hallowed
    obtain ⟨⟨⟨⟨⟨hphase,-⟩,hlt⟩,hle⟩,-⟩,-⟩ := hallowed
    refine hput.follow (by rw [htx]; rfl) hup (fun _ => .inr ⟨record,hrecord,?_,hlt.le,.inr hle⟩)
    rcases hphase with hphase | hphase <;> rw [hphase] <;> decide
  | finalizeIndexBuild t =>
    obtain ⟨tx,root,_,_,_,_,_,hup,hf⟩ := finalizeIndexBuild_ok h
    have htx := hf.appends.txn
    exact .of_withoutBuild ((hup.builds_changed (by rw [htx])).trans hf.builds)
  | failIndexBuild buildID failure updatedAt =>
    obtain ⟨tx,root,_,_,hup,-,hput⟩ := failIndexBuild_ok h
    exact hput.follow rfl hup (fun hphase => absurd rfl hphase)
  | abortIndexBuild buildID =>
    exact .of_withoutBuild ((abortIndexBuild_ok h).builds_changed rfl)
  | replaceCheckpoints cs =>
    obtain ⟨_,_,-,-,hup⟩ := replaceDurableConsumerCheckpoints_ok h
    exact .of_eq (hup.builds_unchanged rfl rfl)
  | initialConsumer name transactionID =>
    obtain ⟨tx,root,batch,_,_,-,hup,ha,-⟩ := createInitialDurableConsumer_ok h
    exact .of_eq (ha.builds_unchanged hup rfl rfl)

theorem getSystemRecord_congr (h : (openCatalog r).system = (openCatalog r').system)
    (key : Bytes) : getSystemRecord r key = getSystemRecord r' key := by
  unfold getSystemRecord systemTree
  rw [h]

def directoryRecords (cs : List Checkpoint) : List SystemRecordMutation :=
  match encodeDurableConsumerCheckpoints cs with
  | .ok encoded => [directoryMutation encoded]
  | .error _ => []
def Publication.systemRecords : Publication → List SystemRecordMutation
  | .documents _ records => records
  | .systemRecord _ _ m => [m]
  | .replaceCheckpoints cs => directoryRecords cs
  | .initialConsumer name _ => directoryRecords [⟨name,1⟩]
  | _ => []

theorem recordAfter_storeDirectory [Sha256] {root : Option Catalog}
    (hencoded : encodeDurableConsumerCheckpoints cs = .ok encoded) (h : storeDirectory root encoded = .ok catalog)
    (key : Bytes) :
    getSystemRecord (some catalog) key = recordAfter (directoryRecords cs) (getSystemRecord root key) key := by
  obtain ⟨-,hrecord⟩ := applySystemRecordMutation_applied (storeDirectory_ok h)
  rw [hrecord,directoryRecords,hencoded,recordAfter,List.find?_cons]
  by_cases hkey : key = durableConsumerKey
  · simp [directoryMutation,hkey]
  have hne : ¬ durableConsumerKey = key := fun h => hkey h.symm
  simp only [directoryMutation,hkey,hne,if_false,decide_false,List.find?_nil]
  rfl

theorem Publication.systemRecord_after [Sha256] (h : p.apply f = .ok f') (key : Bytes) :
    getSystemRecord f'.root.catalogRoot key =
      recordAfter p.systemRecords (getSystemRecord f.root.catalogRoot key) key := by
  cases p with
  | documents t records =>
    obtain ⟨tx,root,_,_,published,catalog,_,hup,hnodup,hd⟩ := applyDocumentTransaction_ok h
    rw [hup.catalogRoot,hd.appends.catalog,(foldlM_systemStep hnodup hd.system).2]
    have hsame : getSystemRecord (some published) key = getSystemRecord f.root.catalogRoot key :=
      getSystemRecord_congr (publish_system hd.publish) key
    rw [hsame]
    rfl
  | group ts =>
    obtain ⟨tx,root,hup,hg⟩ := applyDocumentTransactionGroup_ok h
    rw [hup.catalogRoot]
    exact getSystemRecord_congr hg.system key
  | createCollection transactionID committedAt name =>
    obtain ⟨tx,root,batch,hup,ha,-,hcatalog,-⟩ := applyCreateCollection_ok h
    rw [hup.catalogRoot,ha.catalog,hcatalog]
    exact getSystemRecord_congr rfl key
  | createIndex t =>
    obtain ⟨tx,root,_,_,_,_,_,_,_,_,_,hup,-,-,hc⟩ := applyCreateIndex_ok h
    rw [hup.catalogRoot,hc.appends.catalog]
    exact getSystemRecord_congr rfl key
  | systemRecord transactionID committedAt m =>
    obtain ⟨tx,root,batch,catalog,hup,ha,hstep,hcatalog,-⟩ := applySystemRecordTransaction_ok h
    rw [hup.catalogRoot,ha.catalog,hcatalog]
    have hfold : [m].foldlM systemStep (openCatalog f.root.catalogRoot) = .ok catalog := by
      rw [List.foldlM_cons,hstep]
      rfl
    exact (foldlM_systemStep (by simp) hfold).2 key
  | replicationNoop transactionID committedAt =>
    obtain ⟨tx,root,batch,hup,ha,hcatalog,-⟩ := applyReplicationNoop_ok h
    rw [hup.catalogRoot,ha.catalog,hcatalog]
    rfl
  | retainCommitsFrom keepFrom transactionID committedAt =>
    obtain ⟨tx,root,_,_,_,_,_,_,hup,hr⟩ := retainCommitsFrom_ok h
    rw [hup.catalogRoot,hr.root_eq]
    rfl
  | beginIndexBuild t =>
    obtain ⟨tx0,tx,root,_,_,_,hup,-,-,htx,hput⟩ := beginIndexBuild_ok h
    rw [hup.catalogRoot,hput.root_eq,htx]
    rfl
  | scanBatch batch =>
    obtain ⟨tx,root,_,_,_,_,hup,-,hput⟩ := applyIndexBuildScanBatch_ok h
    rw [hup.catalogRoot,hput.root_eq]
    rfl
  | catchUpBatch batch =>
    obtain ⟨tx0,tx,root,_,_,_,_,hup,-,htx,hput⟩ := applyIndexBuildCatchUpBatch_ok h
    rw [hup.catalogRoot,hput.root_eq,htx]
    rfl
  | finalizeIndexBuild t =>
    obtain ⟨tx,root,_,_,_,_,_,hup,hf⟩ := finalizeIndexBuild_ok h
    rw [hup.catalogRoot,hf.appends.catalog]
    exact getSystemRecord_congr rfl key
  | failIndexBuild buildID failure updatedAt =>
    obtain ⟨tx,root,_,_,hup,-,hput⟩ := failIndexBuild_ok h
    rw [hup.catalogRoot,hput.root_eq]
    rfl
  | abortIndexBuild buildID =>
    rw [(abortIndexBuild_ok h).catalogRoot]
    rfl
  | replaceCheckpoints cs =>
    obtain ⟨encoded,catalog,hencoded,hstore,hup⟩ := replaceDurableConsumerCheckpoints_ok h
    rw [hup.catalogRoot]
    exact recordAfter_storeDirectory hencoded hstore key
  | initialConsumer name transactionID =>
    obtain ⟨tx,root,batch,encoded,catalog,-,hup,ha,hencoded,hstore,hcatalog,-⟩ := createInitialDurableConsumer_ok h
    rw [hup.catalogRoot,ha.catalog,hcatalog]
    exact recordAfter_storeDirectory hencoded hstore key

/-- A publication keeps the directory, deletes it, or writes the one of a record change. -/
theorem Publication.directory_after [Sha256] (h : p.apply f = .ok f') :
    durableConsumerCheckpoints f'.root.catalogRoot = durableConsumerCheckpoints f.root.catalogRoot ∨
      durableConsumerCheckpoints f'.root.catalogRoot = .ok [] ∨
      ∃ m ∈ p.systemRecords, m.key = durableConsumerKey ∧ m.delete = false ∧
        durableConsumerCheckpoints f'.root.catalogRoot = decodeDurableConsumerCheckpoints m.newValue := by
  have hafter := Publication.systemRecord_after h durableConsumerKey
  unfold durableConsumerCheckpoints
  rw [hafter,recordAfter]
  cases hfind : p.systemRecords.find? (fun m => m.key = durableConsumerKey) with
  | none => exact .inl rfl
  | some m =>
    have hkey : m.key = durableConsumerKey := by simpa using List.find?_some hfind
    cases hdelete : m.delete with
    | true => exact .inr (.inl (by simp [hdelete]))
    | false => exact .inr (.inr ⟨m,List.mem_of_find?_eq_some hfind,hkey,hdelete,by simp [hdelete]⟩)

/-- The checkpoints written by a list of record changes all lie in a log that
starts at `oldest`. -/
def WrittenCheckpointsKept (records : List SystemRecordMutation) (oldest : ℕ) : Prop :=
  ∀ m ∈ records, m.key = durableConsumerKey → m.delete = false →
    ∀ cs, decodeDurableConsumerCheckpoints m.newValue = .ok cs → ∀ c ∈ cs, oldest ≤ c.ack+1

/-- The directory after a publication serves its consumers if the written one does. -/
theorem Publication.checkpoints_after [Sha256] (h : p.apply f = .ok f')
    (hneeds : Needs f.root f'.root.oldestRetainedSequence f'.root.commitSequence)
    (hkept : WrittenCheckpointsKept p.systemRecords f'.root.oldestRetainedSequence)
    (hcs : durableConsumerCheckpoints f'.root.catalogRoot = .ok cs) :
    ∀ c ∈ cs, f'.root.oldestRetainedSequence ≤ c.ack+1 := by
  rcases Publication.directory_after h with hsame | hnone | ⟨m,hm,hkey,hdelete,hwritten⟩
  · exact hneeds.checkpoints cs (hsame.symm.trans hcs)
  · cases hnone.symm.trans hcs
    simp
  · exact hkept m hm hkey hdelete cs (hwritten.symm.trans hcs)

theorem Publication.served [Sha256] (hf : FileLogged f log) (hserved : f.root.Served)
    (h : p.apply f = .ok f') (hkept : WrittenCheckpointsKept p.systemRecords f'.root.oldestRetainedSequence) :
    f'.root.Served := by
  obtain ⟨_,hf',-⟩ := Publication.logged hf h
  have hneeds := Publication.needs_kept hf hserved h
  refine ⟨?_,fun cs hcs => Publication.checkpoints_after h hneeds hkept hcs⟩
  intro id b hb hphase
  have hold := hf'.oldest_le
  rcases Publication.builds_follow h id b hb hphase with hnew | ⟨b0,hb0,hphase0,hle,hbound⟩
  · omega
  · have hb0' := hneeds.builds id b0 hb0 hphase0
    omega

end Meldbase.Logical
