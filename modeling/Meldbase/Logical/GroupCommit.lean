import Meldbase.Logical.Retention

/-! # Group commits

A group applies its members to one write transaction and publishes once.  Its
members build on roots that were never published, but a document transaction
reads nothing of the file that a member of the group can change, so every
intermediate root is the root that the members before it would have published.
-/
namespace Meldbase.Logical
open List Outcome

/-! ### What a document transaction reads -/

structure Alike (tx tx' : WriteTxn) : Prop where
  sequence : tx'.sequence = tx.sequence
  requiredFeatures : tx'.requiredFeatures = tx.requiredFeatures
  retainedCommitBytes : tx'.retainedCommitBytes = tx.retainedCommitBytes
  readers : tx'.file.readers = tx.file.readers
  commitRetentionMax : tx'.file.commitRetentionMax = tx.file.commitRetentionMax
  commitRetentionMaxBytes : tx'.file.commitRetentionMaxBytes = tx.file.commitRetentionMaxBytes
  builds : tx'.baseRoot.indexBuildCatalogRoot = tx.baseRoot.indexBuildCatalogRoot
  checkpoints : durableConsumerCheckpoints tx'.baseRoot.catalogRoot = durableConsumerCheckpoints tx.baseRoot.catalogRoot

/-- The transaction after an append that left the given byte total. -/
def WriteTxn.evaluated (tx : WriteTxn) (retained : ℕ) : WriteTxn :=
  { tx with retainedCommitBytes := retained, retentionEvaluated := true }

variable {tx tx' : WriteTxn} {t : DocumentTransaction} {f : File}

theorem Alike.symm (h : Alike tx tx') : Alike tx' tx where
  sequence := h.sequence.symm
  requiredFeatures := h.requiredFeatures.symm
  retainedCommitBytes := h.retainedCommitBytes.symm
  readers := h.readers.symm
  commitRetentionMax := h.commitRetentionMax.symm
  commitRetentionMaxBytes := h.commitRetentionMaxBytes.symm
  builds := h.builds.symm
  checkpoints := h.checkpoints.symm

theorem Alike.pinnedLimit (h : Alike tx tx') (oldest latest : ℕ) :
    Logical.pinnedLimit tx' oldest latest = Logical.pinnedLimit tx oldest latest := by
  unfold Logical.pinnedLimit durableConsumerRetentionFloor
  rw [h.readers,h.builds,h.checkpoints]

theorem Alike.pruneCommitTree (h : Alike tx tx')
    (hp : Logical.pruneCommitTree tx tree oldest latest = .ok (tx1,tree1,keepFrom)) :
    Logical.pruneCommitTree tx' tree oldest latest = .ok (tx'.evaluated tx1.retainedCommitBytes,tree1,keepFrom) := by
  unfold Logical.pruneCommitTree desiredOldest retentionWindow retentionBytes at hp ⊢
  obtain ⟨hguard,hp⟩ := guard_eq_ok.mp hp
  obtain ⟨limit,hlimit,hp⟩ := bind_eq_ok.mp hp
  obtain ⟨⟨t,r,k⟩,hloop,hp⟩ := bind_eq_ok.mp hp
  cases hp
  rw [if_neg hguard,h.pinnedLimit,hlimit,ok_bind,h.commitRetentionMax,h.commitRetentionMaxBytes,
    h.retainedCommitBytes,hloop]
  rfl

theorem Alike.appendCommitToTree (h : Alike tx tx') (tree : CommitTree) (batch : CommitBatch) :
    Logical.appendCommitToTree tx' tree batch = Logical.appendCommitToTree tx tree batch := by
  unfold Logical.appendCommitToTree
  rw [h.sequence]

theorem Alike.appendCommitRetained (h : Alike tx tx')
    (ha : Logical.appendCommitRetained tx root oldest batch = .ok (tx1,root1,keepFrom)) :
    Logical.appendCommitRetained tx' root oldest batch =
      .ok (tx'.evaluated tx1.retainedCommitBytes,root1,keepFrom) := by
  unfold Logical.appendCommitRetained at ha ⊢
  obtain ⟨⟨tree,bytes⟩,happend,ha⟩ := bind_eq_ok.mp ha
  rw [h.appendCommitToTree,happend,ok_bind]
  dsimp only at ha ⊢
  obtain ⟨hbytes,ha⟩ := guard_eq_ok.mp ha
  obtain ⟨hold,ha⟩ := guard_eq_ok.mp ha
  obtain ⟨⟨t,tr,k⟩,hprune,ha⟩ := bind_eq_ok.mp ha
  cases ha
  have halike : Alike { tx with retainedCommitBytes := tx.retainedCommitBytes+bytes }
      { tx' with retainedCommitBytes := tx'.retainedCommitBytes+bytes } :=
    ⟨h.sequence,h.requiredFeatures,by dsimp only; rw [h.retainedCommitBytes],h.readers,h.commitRetentionMax,
      h.commitRetentionMaxBytes,h.builds,h.checkpoints⟩
  rw [if_neg (by rw [h.retainedCommitBytes]; exact hbytes),if_neg hold,halike.pruneCommitTree hprune]
  rfl

def SameContents (base base' : DatabaseRoot) : Prop :=
  base' = { base with
    commitSequence := base'.commitSequence
    indexBuildCatalogRoot := base'.indexBuildCatalogRoot }

theorem SameContents.symm (h : SameContents base base') : SameContents base' base := by
  unfold SameContents at h ⊢
  rw [h]

theorem Alike.stageMutation (h : Alike tx tx')
    (hbase : SameContents base base') (catalog : Catalog) :
    Logical.stageMutation tx' base' catalog = Logical.stageMutation tx base catalog := by
  have hcount : base'.collectionCount = base.collectionCount := by rw [hbase]
  funext work m
  unfold Logical.stageMutation stateFor
  rw [h.requiredFeatures,h.sequence,hcount]

theorem Alike.applyDocuments [Sha256] (h : Alike tx tx') (hbase : SameContents base base')
    (ha : Logical.applyDocuments tx base t records = .ok (tx1,root)) :
    Logical.applyDocuments tx' base' t records = .ok (tx'.evaluated tx1.retainedCommitBytes,root) := by
  have hcatalog : base'.catalogRoot = base.catalogRoot := by rw [hbase]
  have hlog : base'.commitLogRoot = base.commitLogRoot := by rw [hbase]
  have hold : base'.oldestRetainedSequence = base.oldestRetainedSequence := by rw [hbase]
  have hgeneration : base'.catalogGeneration = base.catalogGeneration := by rw [hbase]
  have hdocuments : base'.documentCount = base.documentCount := by rw [hbase]
  have hcollections : base'.collectionCount = base.collectionCount := by rw [hbase]
  unfold Logical.applyDocuments finishDocuments at ha ⊢
  dsimp only at ha ⊢
  rw [hcatalog,hlog,hold,hgeneration,hdocuments,hcollections,h.stageMutation hbase,h.sequence]
  obtain ⟨u,hu,ha⟩ := bind_eq_ok.mp ha
  obtain ⟨v,hv,ha⟩ := bind_eq_ok.mp ha
  obtain ⟨work,hwork,ha⟩ := bind_eq_ok.mp ha
  obtain ⟨states,hstates,ha⟩ := bind_eq_ok.mp ha
  obtain ⟨⟨published,changes⟩,hpublished,ha⟩ := bind_eq_ok.mp ha
  obtain ⟨catalog,hsystem,ha⟩ := bind_eq_ok.mp ha
  obtain ⟨⟨tx2,log,oldest⟩,happend,ha⟩ := bind_eq_ok.mp ha
  dsimp only at ha hpublished happend
  obtain ⟨hcount,ha⟩ := guard_eq_ok.mp ha
  cases ha
  have hsequence : tx1.sequence = tx.sequence := by rw [appendCommitRetained_txn happend]
  rw [hu,ok_bind,hv,ok_bind,hwork,ok_bind,hstates,ok_bind,hpublished,ok_bind]
  dsimp only
  rw [hsystem,ok_bind,h.appendCommitRetained happend,ok_bind]
  dsimp only
  rw [if_neg hcount]
  simp only [WriteTxn.evaluated,h.sequence,hsequence]

/-! ### Members in turn -/

theorem pruneLoop_le (hle : keepFrom ≤ latest)
    (h : pruneLoop latest limit desired maxBytes fuel tree retained keepFrom = .ok (tree',retained',keepFrom')) :
    keepFrom' ≤ latest := by
  induction fuel generalizing tree retained keepFrom with
  | zero =>
    cases h
    exact hle
  | succ fuel ih =>
    rw [pruneLoop] at h
    split_ifs at h with hgo
    · simp only [Bool.and_eq_true,decide_eq_true_eq] at hgo
      obtain ⟨⟨t,r⟩,-,h⟩ := bind_eq_ok.mp h
      exact ih hgo.1.1 h
    · cases h
      exact hle

theorem appendCommitRetained_le (h : appendCommitRetained tx root oldest batch = .ok (tx',root',keepFrom)) :
    keepFrom ≤ batch.sequence := by
  unfold appendCommitRetained at h
  obtain ⟨⟨tree,bytes⟩,-,h⟩ := bind_eq_ok.mp h
  dsimp only at h
  obtain ⟨-,h⟩ := guard_eq_ok.mp h
  obtain ⟨hold,h⟩ := guard_eq_ok.mp h
  obtain ⟨⟨t,tr,k⟩,hprune,h⟩ := bind_eq_ok.mp h
  cases h
  unfold pruneCommitTree at hprune
  obtain ⟨-,hprune⟩ := guard_eq_ok.mp hprune
  obtain ⟨limit,-,hprune⟩ := bind_eq_ok.mp hprune
  obtain ⟨⟨t,r,k⟩,hloop,hprune⟩ := bind_eq_ok.mp hprune
  cases hprune
  exact pruneLoop_le (not_lt.mp hold) hloop

theorem updateAdvance_eq {build : WriteTxn → Except StorageError (WriteTxn × DatabaseRoot)}
    (hbuild : build (f.beginUpdate advance) = .ok (tx,root))
    (hmax : f.root.commitSequence+advance ≤ maxUint64) (hpos : 0 < f.root.commitSequence+advance)
    (hseq : root.commitSequence = f.root.commitSequence+advance)
    (hold : root.oldestRetainedSequence ≤ f.root.commitSequence+advance)
    (hbuilds : (tx.finalRoot root).indexBuildCatalogRoot.isSome = true → tx.requiredFeatures.shadowIndexBuilds = true) :
    f.updateAdvance advance build = .ok (f.publish tx (tx.finalRoot root)) := by
  unfold File.updateAdvance
  dsimp only
  rw [if_neg (not_lt.mpr hmax),hbuild,ok_bind]
  dsimp only
  rw [if_neg,if_neg (by omega)]
  simp only [WriteTxn.finalRoot_commitSequence,WriteTxn.finalRoot_oldestRetainedSequence,hseq,Bool.or_eq_true,
    Bool.and_eq_true,Bool.not_eq_true',decide_eq_true_eq,not_or,not_and,not_lt,Bool.not_eq_false]
  exact ⟨⟨not_not.mpr rfl,hold⟩,hbuilds⟩

structure GroupState (f : File) (acc : WriteTxn × DatabaseRoot) (g : File) : Prop where
  file : acc.1.file = f
  base : acc.1.baseRoot = f.root
  unchanged : acc.1.indexBuildCatalogChanged = false
  features : acc.1.requiredFeatures = f.requiredFeatures
  system : (openCatalog acc.2.catalogRoot).system = (openCatalog f.root.catalogRoot).system
  published : g = f.publish acc.1 (acc.1.finalRoot acc.2)
  bytes : g.retainedCommitBytes = acc.1.retainedCommitBytes

theorem groupState_start (f : File) (n : ℕ) : GroupState f (f.beginUpdate n,f.root) f :=
  ⟨rfl,rfl,rfl,rfl,rfl,rfl,rfl⟩

theorem durableConsumerCheckpoints_congr (h : (openCatalog r).system = (openCatalog r').system) :
    durableConsumerCheckpoints r = durableConsumerCheckpoints r' := by
  unfold durableConsumerCheckpoints
  rw [getSystemRecord_congr h]

section Member
variable {f g : File} {acc : WriteTxn × DatabaseRoot}

section
variable (h : GroupState f acc g)
include h

theorem GroupState.root : g.root = { acc.2 with indexBuildCatalogRoot := f.root.indexBuildCatalogRoot } := by
  rw [h.published,← h.base]
  simp [File.publish,WriteTxn.finalRoot,h.unchanged]

theorem GroupState.contents : SameContents acc.2 g.root := by
  rw [h.root]
  rfl

/-- The member's transaction inside the group and the one it would have alone. -/
theorem GroupState.alike : Alike { acc.1 with sequence := acc.2.commitSequence+1 } (g.beginUpdate 1) where
  sequence := by
    show g.root.commitSequence+1 = _
    rw [h.root]
  requiredFeatures := by
    show g.requiredFeatures = _
    rw [h.published]
    rfl
  retainedCommitBytes := h.bytes
  readers := by
    show g.readers = acc.1.file.readers
    rw [h.published,h.file]
    rfl
  commitRetentionMax := by
    show g.commitRetentionMax = acc.1.file.commitRetentionMax
    rw [h.published,h.file]
    rfl
  commitRetentionMaxBytes := by
    show g.commitRetentionMaxBytes = acc.1.file.commitRetentionMaxBytes
    rw [h.published,h.file]
    rfl
  builds := by
    show g.root.indexBuildCatalogRoot = acc.1.baseRoot.indexBuildCatalogRoot
    rw [h.root,h.base]
  checkpoints := by
    show durableConsumerCheckpoints g.root.catalogRoot = durableConsumerCheckpoints acc.1.baseRoot.catalogRoot
    rw [h.base]
    apply durableConsumerCheckpoints_congr
    rw [h.root]
    exact h.system

/-- Publishing a member over the files before it. -/
theorem GroupState.next [Sha256]
    (hmember : applyDocuments { acc.1 with sequence := acc.2.commitSequence+1 } acc.2 t [] = .ok acc') :
    GroupState f acc' (g.publish ((g.beginUpdate 1).evaluated acc'.1.retainedCommitBytes)
      (((g.beginUpdate 1).evaluated acc'.1.retainedCommitBytes).finalRoot acc'.2)) := by
  obtain ⟨work,states,published,catalog,changes,hd⟩ := applyDocuments_ok hmember
  have htx := hd.appends.txn
  have hbase : acc'.1.baseRoot = f.root := by rw [htx]; exact h.base
  have hunchanged : acc'.1.indexBuildCatalogChanged = false := by rw [htx]; exact h.unchanged
  have hfeatures : acc'.1.requiredFeatures = f.requiredFeatures := by rw [htx]; exact h.features
  have hevaluated : acc'.1.retentionEvaluated = true := by rw [htx]
  refine ⟨by rw [htx]; exact h.file,hbase,hunchanged,hfeatures,hd.system_eq.trans h.system,?_,?_⟩
  · have hg := h.published
    have hroot := h.root
    have hgfeatures : g.requiredFeatures = f.requiredFeatures := by rw [hg,← h.features]; rfl
    simp only [File.publish,WriteTxn.finalRoot,WriteTxn.evaluated,File.beginUpdate,hunchanged,hevaluated,hbase,
      hfeatures,hgfeatures,hroot,if_true,Bool.false_eq_true,if_false]
    rw [hg]
    rfl
  · rfl

end
end Member

variable {acc acc' : WriteTxn × DatabaseRoot} {g : File} {ts : List DocumentTransaction}

theorem groupStep_ok [Sha256] (h : groupStep acc t = .ok acc') : acc.2.commitSequence ≠ maxUint64 ∧
      applyDocuments { acc.1 with sequence := acc.2.commitSequence+1 } acc.2 t [] = .ok acc' ∧
      acc'.2.commitSequence = acc.2.commitSequence+1 := by
  unfold groupStep at h
  obtain ⟨hmax,h⟩ := guard_eq_ok.mp h
  obtain ⟨work,states,published,catalog,changes,hd⟩ := applyDocuments_ok h
  exact ⟨hmax,h,hd.appends.sequence⟩

theorem GroupState.alone [Sha256] (h : GroupState f acc g) (hvalid : validTransaction t = true)
    (hmax : acc.2.commitSequence ≤ maxUint64)
    (hbuilds : f.root.indexBuildCatalogRoot.isSome = true → f.requiredFeatures.shadowIndexBuilds = true)
    (hstep : groupStep acc t = .ok acc') : ∃ g', g.applyDocumentTransaction t [] = .ok g' ∧ GroupState f acc' g' := by
  obtain ⟨hne,hmember,hnext⟩ := groupStep_ok hstep
  obtain ⟨work,states,published,catalog,changes,hd⟩ := applyDocuments_ok hmember
  have hsequence : g.root.commitSequence = acc.2.commitSequence := by rw [h.root]
  refine ⟨_,?_,h.next hmember⟩
  unfold File.applyDocumentTransaction
  rw [if_neg (by simp [hvalid])]
  refine updateAdvance_eq (h.alike.applyDocuments h.contents hmember) (by omega) (Nat.succ_pos _) ?_ ?_ ?_
  · rw [hnext,hsequence]
  · rw [hsequence]
    exact appendCommitRetained_le hd.appends.append
  intro hsome
  have hflag : g.requiredFeatures = f.requiredFeatures := by rw [h.published,← h.features]; rfl
  have hsame : (((g.beginUpdate 1).evaluated acc'.1.retainedCommitBytes).finalRoot acc'.2).indexBuildCatalogRoot =
      f.root.indexBuildCatalogRoot := by
    show g.root.indexBuildCatalogRoot = _
    rw [h.root]
  show g.requiredFeatures.shadowIndexBuilds = true
  rw [hflag]
  exact hbuilds (hsame ▸ hsome)

/-- A member that commits alone is accepted by the group. -/
theorem GroupState.together [Sha256] (h : GroupState f acc g) (halone : g.applyDocumentTransaction t [] = .ok g') :
    validTransaction t = true ∧ ∃ acc', groupStep acc t = .ok acc' ∧ GroupState f acc' g' := by
  have hsequence : g.root.commitSequence = acc.2.commitSequence := by rw [h.root]
  unfold File.applyDocumentTransaction at halone
  obtain ⟨hguard,halone⟩ := guard_eq_ok.mp halone
  obtain ⟨tx,root,hbuilt,hup⟩ := updateAdvance_ok halone
  have hmember := h.alike.symm.applyDocuments h.contents.symm hbuilt
  have hnext := h.next hmember
  obtain ⟨work,states,published,catalog,changes,hd⟩ := applyDocuments_ok hbuilt
  have htx : tx = (g.beginUpdate 1).evaluated tx.retainedCommitBytes := hd.appends.txn
  have hle := hup.sequence_le
  have hgroup : groupStep acc t = applyDocuments { acc.1 with sequence := acc.2.commitSequence+1 } acc.2 t [] := by
    unfold groupStep
    rw [if_neg (by omega)]
  refine ⟨by simpa using hguard,_,hgroup.trans hmember,?_⟩
  rw [hup.file,htx]
  exact hnext

/-! ### Sequences -/

def groupMember [Sha256] (acc : (WriteTxn × DatabaseRoot) × List ℕ) (t : DocumentTransaction) :
    Except StorageError ((WriteTxn × DatabaseRoot) × List ℕ) := do
  let next ← groupStep acc.1 t
  .ok (next,acc.2 ++ [next.2.commitSequence])

/-- `ApplyDocumentTransactionGroup` with the sequences it returns. -/
def File.commitGroup [Sha256] (f : File) (ts : List DocumentTransaction) : Except StorageError (File × List ℕ) := do
  let g ← f.applyDocumentTransactionGroup ts
  let (_,sequences) ← ts.foldlM groupMember ((f.beginUpdate ts.length,f.root),[])
  .ok (g,sequences)

/-- `ApplyDocumentTransaction` with the sequence it returns. -/
def commitMember [Sha256] (acc : File × List ℕ) (t : DocumentTransaction) : Except StorageError (File × List ℕ) := do
  let g ← acc.1.applyDocumentTransaction t []
  .ok (g,acc.2 ++ [g.root.commitSequence])
def File.commitInTurn [Sha256] (f : File) (ts : List DocumentTransaction) : Except StorageError (File × List ℕ) :=
  ts.foldlM commitMember (f,[])

structure ValidGroup (ts : List DocumentTransaction) : Prop where
  two_le : 2 ≤ ts.length
  le_limit : ts.length ≤ 256
  members : ∀ t ∈ ts, validTransaction t = true
  distinct : (ts.map DocumentTransaction.transactionID).Nodup

theorem applyDocumentTransactionGroup_eq [Sha256] (f : File) (ts : List DocumentTransaction) [Decidable (ValidGroup ts)] :
    f.applyDocumentTransactionGroup ts = if ValidGroup ts then
      f.updateAdvance ts.length (fun tx => ts.foldlM groupStep (tx,tx.baseRoot)) else .error .corrupt := by
  unfold File.applyDocumentTransactionGroup
  by_cases hvalid : ValidGroup ts
  · rw [if_pos hvalid,if_neg]
    have htwo := hvalid.two_le
    have hlimit := hvalid.le_limit
    have hall : ts.all validTransaction = true := all_eq_true.mpr hvalid.members
    simp only [hall,hvalid.distinct,Bool.or_eq_true,decide_eq_true_eq,decide_true,Bool.not_true,
      Bool.false_eq_true,or_false,not_or]
    omega
  rw [if_neg hvalid,if_pos]
  by_contra hguard
  simp only [Bool.or_eq_true,decide_eq_true_eq,not_or,not_lt,Bool.not_eq_true',Bool.not_eq_false,
    decide_eq_false_iff_not,not_not] at hguard
  exact hvalid ⟨hguard.1.1.1,hguard.1.1.2,all_eq_true.mp hguard.1.2,hguard.2⟩

theorem GroupState.all_alone [Sha256] (h : GroupState f acc g) (sequences : List ℕ) (hvalid : ∀ t ∈ ts, validTransaction t = true)
    (hmax : acc.2.commitSequence ≤ maxUint64)
    (hbuilds : f.root.indexBuildCatalogRoot.isSome = true → f.requiredFeatures.shadowIndexBuilds = true)
    (hgroup : ts.foldlM groupStep acc = .ok acc') :
    ∃ g' sequences', ts.foldlM commitMember (g,sequences) = .ok (g',sequences') ∧ GroupState f acc' g' ∧
      ts.foldlM groupMember (acc,sequences) = .ok (acc',sequences') := by
  induction ts generalizing acc g sequences with
  | nil =>
    cases hgroup
    exact ⟨g,sequences,rfl,h,rfl⟩
  | cons t ts ih =>
    rw [foldlM_cons] at hgroup
    obtain ⟨next,hstep,hgroup⟩ := bind_eq_ok.mp hgroup
    obtain ⟨hne,-,hseq⟩ := groupStep_ok hstep
    obtain ⟨g1,halone,h1⟩ := h.alone (hvalid t mem_cons_self) hmax hbuilds hstep
    have hroot : g1.root.commitSequence = next.2.commitSequence := by rw [h1.root]
    obtain ⟨g',sequences',hturn,h',hmember⟩ := ih h1 (sequences ++ [next.2.commitSequence])
      (fun t' ht' => hvalid t' (mem_cons_of_mem _ ht')) (by omega) hgroup
    refine ⟨g',sequences',?_,h',?_⟩
    · rw [foldlM_cons,commitMember,halone,ok_bind,ok_bind,hroot]
      exact hturn
    · rw [foldlM_cons,groupMember,hstep,ok_bind,ok_bind]
      exact hmember

theorem groupMember_of_steps [Sha256] (sequences : List ℕ) (h : ts.foldlM groupStep acc = .ok acc') :
    ∃ sequences', ts.foldlM groupMember (acc,sequences) = .ok (acc',sequences') := by
  induction ts generalizing acc sequences with
  | nil =>
    cases h
    exact ⟨sequences,rfl⟩
  | cons t ts ih =>
    rw [foldlM_cons] at h
    obtain ⟨next,hstep,h⟩ := bind_eq_ok.mp h
    obtain ⟨sequences',hmember⟩ := ih (sequences ++ [next.2.commitSequence]) h
    refine ⟨sequences',?_⟩
    rw [foldlM_cons,groupMember,hstep,ok_bind,ok_bind]
    exact hmember

/-- From the other side: single commits in turn are accepted as members. -/
theorem GroupState.all_together [Sha256] (h : GroupState f acc g)
    (hturn : ts.foldlM commitMember (g,sequences) = .ok (g',sequences')) :
    (∀ t ∈ ts, validTransaction t = true) ∧ ∃ acc', ts.foldlM groupStep acc = .ok acc' ∧ GroupState f acc' g' := by
  induction ts generalizing acc g sequences with
  | nil =>
    cases hturn
    exact ⟨by simp,acc,rfl,h⟩
  | cons t ts ih =>
    rw [foldlM_cons] at hturn
    obtain ⟨⟨g1,sequences1⟩,hmember,hturn⟩ := bind_eq_ok.mp hturn
    unfold commitMember at hmember
    obtain ⟨g2,halone,hmember⟩ := bind_eq_ok.mp hmember
    cases hmember
    obtain ⟨hvalid,acc1,hstep,h1⟩ := h.together halone
    obtain ⟨hall,acc',hgroup,h'⟩ := ih h1 hturn
    refine ⟨forall_mem_cons.mpr ⟨hvalid,hall⟩,acc',?_,h'⟩
    rw [foldlM_cons,hstep,ok_bind]
    exact hgroup

/-! ### The group as a whole -/

theorem updateAdvance_flag
    {build : WriteTxn → Except StorageError (WriteTxn × DatabaseRoot)} (h : f.updateAdvance advance build = .ok f') :
    f'.root.indexBuildCatalogRoot.isSome = true → f'.requiredFeatures.shadowIndexBuilds = true := by
  unfold File.updateAdvance at h
  obtain ⟨-,h⟩ := guard_eq_ok.mp h
  obtain ⟨⟨tx,root⟩,-,h⟩ := bind_eq_ok.mp h
  obtain ⟨hguard,h⟩ := guard_eq_ok.mp h
  obtain ⟨-,h⟩ := guard_eq_ok.mp h
  cases h
  intro hsome
  by_contra hflag
  have hflag' : tx.requiredFeatures.shadowIndexBuilds = false := Bool.eq_false_of_not_eq_true hflag
  have hsome' : (tx.finalRoot root).indexBuildCatalogRoot.isSome = true := hsome
  simp [hflag',hsome'] at hguard

theorem groupStep_txn [Sha256] (h : ts.foldlM groupStep acc = .ok acc') :
    acc'.1.baseRoot = acc.1.baseRoot ∧ acc'.1.indexBuildCatalogChanged = acc.1.indexBuildCatalogChanged ∧
      acc'.1.requiredFeatures = acc.1.requiredFeatures := by
  refine foldlM_invariant (I := fun b : WriteTxn × DatabaseRoot => b.1.baseRoot = acc.1.baseRoot ∧
    b.1.indexBuildCatalogChanged = acc.1.indexBuildCatalogChanged ∧ b.1.requiredFeatures = acc.1.requiredFeatures)
    ?_ ⟨rfl,rfl,rfl⟩ h
  intro b t _ b' hb hstep
  obtain ⟨-,hmember,-⟩ := groupStep_ok hstep
  obtain ⟨work,states,published,catalog,changes,hd⟩ := applyDocuments_ok hmember
  rw [hd.appends.txn]
  exact hb

theorem groupStep_sequences [Sha256] (hmax : acc.2.commitSequence ≤ maxUint64) (h : ts.foldlM groupStep acc = .ok acc') :
    acc'.2.commitSequence = acc.2.commitSequence+ts.length ∧ acc'.2.commitSequence ≤ maxUint64 ∧
      (ts ≠ [] → acc'.2.oldestRetainedSequence ≤ acc'.2.commitSequence) := by
  refine foldlM_from_start (I := fun done (b : WriteTxn × DatabaseRoot) =>
    b.2.commitSequence = acc.2.commitSequence+done.length ∧ b.2.commitSequence ≤ maxUint64 ∧
      (done ≠ [] → b.2.oldestRetainedSequence ≤ b.2.commitSequence)) ?_ ⟨rfl,hmax,fun hne => absurd rfl hne⟩ h
  rintro done b t b' ⟨hcount,hle,-⟩ hstep
  obtain ⟨hne,hmember,hseq⟩ := groupStep_ok hstep
  obtain ⟨work,states,published,catalog,changes,hd⟩ := applyDocuments_ok hmember
  refine ⟨?_,by omega,?_⟩
  · rw [length_append,length_singleton]
    omega
  intro _
  rw [hd.appends.sequence]
  exact appendCommitRetained_le hd.appends.append

/-- The first member alone has checked the bounds of the group. -/
theorem commitInTurn_bounds [Sha256] (hne : ts ≠ [])
    (h : f.commitInTurn ts = .ok r) : f.root.commitSequence ≤ maxUint64 ∧
      (f.root.indexBuildCatalogRoot.isSome = true → f.requiredFeatures.shadowIndexBuilds = true) := by
  obtain ⟨t,rest,rfl⟩ := exists_cons_of_ne_nil hne
  rw [File.commitInTurn,foldlM_cons] at h
  obtain ⟨⟨g1,sequences1⟩,hmember,-⟩ := bind_eq_ok.mp h
  unfold commitMember at hmember
  obtain ⟨g,halone,-⟩ := bind_eq_ok.mp hmember
  obtain ⟨-,acc,-,hstate⟩ := (groupState_start f 1).together halone
  unfold File.applyDocumentTransaction at halone
  have hupdate := (guard_eq_ok.mp halone).2
  obtain ⟨tx,root,-,hup⟩ := updateAdvance_ok hupdate
  have hle := hup.sequence_le
  dsimp only at hle
  have hflag := updateAdvance_flag hupdate
  have hfeatures : g.requiredFeatures = f.requiredFeatures := by
    rw [hstate.published,← hstate.features]
    rfl
  rw [hstate.root,hfeatures] at hflag
  exact ⟨by omega,hflag⟩

theorem commitGroup_of_in_turn [Sha256] (hvalid : ValidGroup ts)
    (h : f.commitInTurn ts = .ok (g,sequences)) : f.commitGroup ts = .ok (g,sequences) := by
  classical
  have htwo := hvalid.two_le
  have hne : ts ≠ [] := by
    rintro rfl
    simp at htwo
  obtain ⟨hmax,hbuilds⟩ := commitInTurn_bounds hne h
  have hstart := groupState_start f ts.length
  obtain ⟨-,acc,hgroup,hstate⟩ := hstart.all_together h
  obtain ⟨g',sequences',hturn,-,hmembers⟩ := hstart.all_alone [] hvalid.members hmax hbuilds hgroup
  have hsame := h.symm.trans hturn
  cases hsame
  obtain ⟨hcount,hle,hold⟩ := groupStep_sequences hmax hgroup
  dsimp only at hcount hle hold
  obtain ⟨hbase,hchanged,hfeatures⟩ := groupStep_txn hgroup
  have hpublished : f.applyDocumentTransactionGroup ts = .ok g := by
    rw [applyDocumentTransactionGroup_eq,if_pos hvalid,hstate.published]
    refine updateAdvance_eq hgroup (by omega) (by omega) hcount (hcount ▸ hold hne) ?_
    intro hsome
    rw [hfeatures]
    rw [WriteTxn.finalRoot,hchanged,if_neg (by simp [File.beginUpdate]),hbase] at hsome
    exact hbuilds hsome
  unfold File.commitGroup
  rw [hpublished,ok_bind,hmembers]
  rfl

theorem in_turn_of_commitGroup [Sha256]
    (h : f.commitGroup ts = .ok (g,sequences)) : ValidGroup ts ∧ f.commitInTurn ts = .ok (g,sequences) := by
  classical
  unfold File.commitGroup at h
  obtain ⟨g1,hpublished,h⟩ := bind_eq_ok.mp h
  obtain ⟨⟨acc1,sequences1⟩,hmembers,h⟩ := bind_eq_ok.mp h
  cases h
  rw [applyDocumentTransactionGroup_eq] at hpublished
  split_ifs at hpublished with hvalid
  obtain ⟨tx,root,hgroup,hup⟩ := updateAdvance_ok hpublished
  have hflag := updateAdvance_flag hpublished
  obtain ⟨hbase,hchanged,hfeatures⟩ := groupStep_txn hgroup
  have hbuilds : f.root.indexBuildCatalogRoot.isSome = true → f.requiredFeatures.shadowIndexBuilds = true := by
    rw [hup.builds_unchanged hbase hchanged] at hflag
    rw [hup.file] at hflag
    intro hsome
    have := hflag hsome
    rwa [show (f.publish tx (tx.finalRoot root)).requiredFeatures = f.requiredFeatures from hfeatures] at this
  have hmax := hup.sequence_le
  obtain ⟨g',sequences',hturn,hstate,hmembers'⟩ := (groupState_start f ts.length).all_alone []
    hvalid.members (by dsimp only; omega) hbuilds hgroup
  have hsequences : sequences = sequences' := by
    have := hmembers.symm.trans hmembers'
    cases this
    rfl
  refine ⟨hvalid,?_⟩
  rw [File.commitInTurn,hturn,hup.file,hstate.published,hsequences]

theorem exists_commitGroup [Sha256] (h : f.applyDocumentTransactionGroup ts = .ok g) :
    ∃ sequences, f.commitGroup ts = .ok (g,sequences) := by
  classical
  have hgroup := h
  rw [applyDocumentTransactionGroup_eq] at hgroup
  split_ifs at hgroup with hvalid
  obtain ⟨tx,root,hsteps,-⟩ := updateAdvance_ok hgroup
  obtain ⟨sequences,hmembers⟩ := groupMember_of_steps [] hsteps
  refine ⟨sequences,?_⟩
  unfold File.commitGroup
  rw [h,ok_bind]
  exact bind_eq_ok.mpr ⟨_,hmembers,rfl⟩

/-- A group succeeds exactly when its list is well formed and its members succeed
one after another, and it then leaves the same file and assigns the same
sequences; when a member fails in its turn, nothing of the group is published. -/
theorem group_commit_eq_in_turn [Sha256] (s : Session) (ts : List DocumentTransaction) :
    (∀ r, s.file.commitGroup ts = .ok r ↔ ValidGroup ts ∧ s.file.commitInTurn ts = .ok r) ∧
      ((∀ r, s.file.commitInTurn ts ≠ .ok r) → s.step (.publish ⟨.group ts,rfl⟩) = s) := by
  have hiff : ∀ r, s.file.commitGroup ts = .ok r ↔ ValidGroup ts ∧ s.file.commitInTurn ts = .ok r := by
    rintro ⟨g,sequences⟩
    exact ⟨in_turn_of_commitGroup,fun h => commitGroup_of_in_turn h.1 h.2⟩
  refine ⟨hiff,?_⟩
  intro hfails
  cases hgroup : s.file.applyDocumentTransactionGroup ts with
  | error e =>
    have hperform : s.perform (.publish ⟨.group ts,rfl⟩) = .error e := by
      unfold Session.perform Publication.apply
      dsimp only
      rw [hgroup]
      rfl
    rw [Session.step,hperform]
  | ok g =>
    obtain ⟨sequences,hcommit⟩ := exists_commitGroup hgroup
    exact absurd ((hiff _).mp hcommit).2 (hfails _)

def insertOne (transaction document : Byte) : DocumentTransaction :=
  ⟨.filled transaction,0,[],[],[⟨[97],.filled document,.insert,[document],[],[]⟩]⟩

open scoped OwnDigest

/-- Two inserts get the sequences 1 and 2; when the second repeats the first's
document, the first is not published either. -/
theorem group_of_two_inserts :
    (∃ g, (File.create 0 0).commitInTurn [insertOne 1 1,insertOne 2 2] = .ok (g,[1,2]) ∧
      (File.create 0 0).commitGroup [insertOne 1 1,insertOne 2 2] = .ok (g,[1,2])) ∧
    (Session.start (File.create 0 0)).step (.publish ⟨.group [insertOne 1 1,insertOne 2 1],rfl⟩) =
      Session.start (File.create 0 0) := by
  have hvalid : ValidGroup [insertOne 1 1,insertOne 2 2] := ⟨by decide,by decide,by decide,by decide⟩
  refine ⟨?_,(group_commit_eq_in_turn (Session.start (File.create 0 0)) _).2 ?_⟩
  · have hturn : ∃ g, (File.create 0 0).commitInTurn [insertOne 1 1,insertOne 2 2] = .ok (g,[1,2]) := ⟨_,rfl⟩
    obtain ⟨g,hturn⟩ := hturn
    exact ⟨g,hturn,((group_commit_eq_in_turn (Session.start (File.create 0 0)) _).1 _).mpr ⟨hvalid,hturn⟩⟩
  intro r hr
  have hfails : (File.create 0 0).commitInTurn [insertOne 1 1,insertOne 2 1] = .error .documentExists := rfl
  exact absurd (hfails.symm.trans hr) (by simp)

end Meldbase.Logical
