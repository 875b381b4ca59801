import Mathlib.Data.List.Destutter
import Meldbase.Logical.Checkpoints

/-! # The commit log

Appending a batch, reading it back and pruning.  `LogHolds` says that a commit
tree stores exactly the batches of one sequence interval; every operation of the
log is specified by what it does to that interval.
-/
namespace Meldbase.Logical
open Function SortedMap Outcome List Option Nat

def commitHeaderBytes : ℕ := 96
def maxCommitValueBytes : ℕ := 64*1024*1024
def defaultCommitRetentionMaxCommits : ℕ := 10000
def defaultCommitRetentionMaxBytes : ℕ := 256*1024*1024
def maxConcurrentIndexBuilds : ℕ := 64

/-! ### Changes -/

def validChangedPath (path : Bytes) : Bool :=
  path.length ≠ 0 && path.length ≤ 1024 && utf8Valid path && path.all (· ≠ 0)
def normalizeChangedPaths (paths : List Bytes) : Except StorageError (List Bytes) :=
  if maxUint16 < paths.length || !paths.all validChangedPath then .error .corrupt
  else .ok ((paths.insertionSort (· ≤ ·)).destutter (· ≠ ·))
def encodedChangeBytes (c : CommitChange) : ℕ :=
  52+c.collectionName.length+c.before.length+c.after.length + (c.changedPaths.map (fun p => 2+p.length)).sum
def validVersionRef (documentID : Identifier) (image : ChangeImage) : Option DocumentVersionRef → Bool
  | none => true
  | some r => image.length = 0 && r.primaryRoot.isSome && r.documentID = documentID
def encodeCommitChange (c : CommitChange) : Except StorageError CommitChange :=
  if c.collectionID = 0 || maxCommitValueBytes < c.before.length || maxCommitValueBytes < c.after.length then
    .error .corrupt
  else if c.operation ≠ .catalog && c.documentID.isZero then .error .corrupt
  else if (c.operation ≠ .catalog && c.collectionName ≠ []) ||
      (c.collectionName ≠ [] && !validCollectionName c.collectionName) then .error .corrupt
  else if !validVersionRef c.documentID c.before c.beforeRef || !validVersionRef c.documentID c.after c.afterRef then
    .error .corrupt
  else do
    let paths ← normalizeChangedPaths c.changedPaths
    let encoded := { c with changedPaths := paths }
    if maxCommitValueBytes < encodedChangeBytes encoded then .error .corrupt else .ok encoded
def addLogicalBytes (total : ℕ) (c : CommitChange) : Except StorageError ℕ :=
  if maxCommitValueBytes < encodedChangeBytes c || maxUint64 < total+encodedChangeBytes c then .error .corrupt
  else .ok (total+encodedChangeBytes c)

variable (batch : CommitBatch) {tree : CommitTree}

def commitBatchLogicalBytes : Except StorageError ℕ := batch.changes.foldlM addLogicalBytes commitHeaderBytes

/-! ### Appending and reading -/

def headerOf : CommitHeader :=
  ⟨batch.sequence,batch.transactionID,batch.committedAt,batch.changes.length,batch.catalogRoot,batch.changes⟩
def putChanges (sequence : ℕ) : ℕ → List CommitChange → CommitTree → CommitTree
  | _, [], tree => tree
  | ordinal, c::cs, tree =>
    putChanges sequence (ordinal+1) cs (tree.insert (commitKey sequence ordinal) (.change c))
def CommitBatch.withChanges (changes : List CommitChange) : CommitBatch :=
  { batch with changes := changes }

variable (tx : WriteTxn)

def appendCommitToTree (tree : CommitTree) (batch : CommitBatch) : Except StorageError (CommitTree × ℕ) :=
  if batch.sequence ≠ tx.sequence || batch.sequence = 0 || batch.transactionID.isZero || batch.changes = [] ||
      maxUint32 - 1 < batch.changes.length then .error .corrupt
  else do
    let changes ← batch.changes.mapM encodeCommitChange
    let stored := batch.withChanges changes
    let logicalBytes ← commitBatchLogicalBytes stored
    let tree := tree.insert (commitKey batch.sequence 0) (.header (headerOf stored))
    .ok (putChanges batch.sequence 1 changes tree,logicalBytes)
def readChanges (tree : CommitTree) (sequence : ℕ) : ℕ → ℕ → Except StorageError (List CommitChange)
  | _, 0 => .ok []
  | ordinal, n+1 =>
    match tree.find (commitKey sequence ordinal) with
    | some (.change c) => do
      let rest ← readChanges tree sequence (ordinal+1) n
      .ok (c::rest)
    | _ => .error .corrupt

/-- `readCommitUsing`. -/
def readCommit (tree : CommitTree) (sequence : ℕ) : Except StorageError CommitBatch :=
  if sequence = 0 then .error .corrupt
  else match tree.find (commitKey sequence 0) with
    | some (.header h) =>
      if h.sequence ≠ sequence || h.count = 0 || h.transactionID.isZero then .error .corrupt
      else do
        let changes ← readChanges tree sequence 1 h.count
        if h.digest ≠ changes then .error .corrupt
        else .ok ⟨sequence,h.transactionID,h.committedAt,h.catalogRoot,changes⟩
    | _ => .error .corrupt

/-! ### Pruning -/

def deleteOrdinals (sequence : ℕ) : ℕ → ℕ → CommitTree → Except StorageError CommitTree
  | _, 0, tree => .ok tree
  | ordinal, n+1, tree =>
    if (tree.find (commitKey sequence ordinal)).isNone then .error .corrupt
    else deleteOrdinals sequence (ordinal+1) n (tree.erase (commitKey sequence ordinal))

/-- Removes the batch at `sequence` and its bytes from the running total. -/
def removeCommit (tree : CommitTree) (retained sequence : ℕ) : Except StorageError (CommitTree × ℕ) := do
  let stored ← readCommit tree sequence
  let removed ← commitBatchLogicalBytes stored
  if retained < removed then .error .corrupt
  else do
    let tree ← deleteOrdinals sequence 0 (stored.changes.length+1) tree
    .ok (tree,retained - removed)

/-- The first commit a replay pin still needs; the code guards the wrap of `sequence + 1`. -/
def ReaderPin.protected (pin : ReaderPin) : ℕ :=
  if pin.sequence = maxUint64 then pin.sequence else pin.sequence+1
def replayLimit (pins : List ReaderPin) (latest : ℕ) : ℕ :=
  pins.foldl (fun limit pin => if pin.replay then min limit pin.protected else limit) latest
def buildLimitStep (oldest latest limit : ℕ) (build : IndexBuildMeta) : Except StorageError ℕ :=
  if build.phase = .failed || latest ≤ build.appliedSequence then .ok limit
  else if build.appliedSequence+1 < oldest then .error .corrupt
  else .ok (min limit (build.appliedSequence+1))
def buildLimit (builds : Root Identifier IndexBuildMeta) (oldest latest limit : ℕ) : Except StorageError ℕ :=
  match builds with
  | none => .ok limit
  | some tree =>
    if maxConcurrentIndexBuilds < tree.size then .error .corrupt
    else (tree.entries.map Prod.snd).foldlM (buildLimitStep oldest latest) limit
def floorStep (oldest latest floor : ℕ) (c : Checkpoint) : Except StorageError ℕ :=
  if latest ≤ c.ack then .error .corrupt
  else if c.ack+1 < oldest then .error .corrupt
  else .ok (min floor (c.ack+1))

/-- The earliest commit a saved checkpoint needs, 0 when there is no checkpoint. -/
def durableConsumerRetentionFloor (catalogRoot : Option Catalog) (oldest latest : ℕ) : Except StorageError ℕ :=
  if oldest = 0 || latest < oldest then .error .corrupt
  else do
    let checkpoints ← durableConsumerCheckpoints catalogRoot
    if checkpoints = [] then .ok 0 else checkpoints.foldlM (floorStep oldest latest) latest

/-- The pruning loop; it stops at `latest`, so the number of commits after
`keepFrom` is enough fuel. -/
def pruneLoop (latest pinnedLimit desired maxBytes : ℕ) :
    ℕ → CommitTree → ℕ → ℕ → Except StorageError (CommitTree × ℕ × ℕ)
  | 0, tree, retained, keepFrom => .ok (tree,retained,keepFrom)
  | fuel+1, tree, retained, keepFrom =>
    if keepFrom < latest && keepFrom < pinnedLimit && (keepFrom < desired || maxBytes < retained) then do
      let (tree,retained) ← removeCommit tree retained keepFrom
      pruneLoop latest pinnedLimit desired maxBytes fuel tree retained (keepFrom+1)
    else .ok (tree,retained,keepFrom)

variable (f : File)

def retentionWindow : ℕ :=
  if f.commitRetentionMax = 0 then defaultCommitRetentionMaxCommits else f.commitRetentionMax

/-- The oldest commit the configured window wants to keep. -/
def desiredOldest (latest : ℕ) : ℕ :=
  if retentionWindow f ≤ latest then latest - retentionWindow f+1 else 1
def retentionBytes : ℕ :=
  if f.commitRetentionMaxBytes = 0 then defaultCommitRetentionMaxBytes else f.commitRetentionMaxBytes

/-- Pins, builds and consumers are those of the file and of the base root, not of
the root being built. -/
def pinnedLimit (oldest latest : ℕ) : Except StorageError ℕ := do
  let limit := replayLimit (tx.file.readers.entries.map Prod.snd) latest
  let limit ← buildLimit tx.baseRoot.indexBuildCatalogRoot oldest latest limit
  let floor ← durableConsumerRetentionFloor tx.baseRoot.catalogRoot oldest latest
  let limit := if floor ≠ 0 then min limit floor else limit
  .ok (max limit oldest)
def pruneCommitTree (tree : CommitTree) (oldest latest : ℕ) :
    Except StorageError (WriteTxn × CommitTree × ℕ) :=
  if oldest = 0 || latest < oldest then .error .corrupt
  else do
    let limit ← pinnedLimit tx oldest latest
    let (tree,retained,keepFrom) ← pruneLoop latest limit (desiredOldest tx.file latest) (retentionBytes tx.file)
      (latest - oldest) tree tx.retainedCommitBytes oldest
    .ok ({ tx with retainedCommitBytes := retained, retentionEvaluated := true },tree,keepFrom)
def appendCommitRetained (root : Root CommitKey CommitValue) (oldest : ℕ) (batch : CommitBatch) :
    Except StorageError (WriteTxn × Root CommitKey CommitValue × ℕ) := do
  let (tree,logicalBytes) ← appendCommitToTree tx (openTree root) batch
  if maxUint64 < tx.retainedCommitBytes+logicalBytes then .error .corrupt
  else
    let tx := { tx with retainedCommitBytes := tx.retainedCommitBytes+logicalBytes }
    let oldest := if oldest = 0 then batch.sequence else oldest
    if batch.sequence < oldest then .error .corrupt
    else do
      let (tx,tree,keepFrom) ← pruneCommitTree tx tree oldest batch.sequence
      .ok (tx,some tree,keepFrom)

/-! ### What a commit tree holds -/

def batchValue : ℕ → Option CommitValue
  | 0 => some (.header (headerOf batch))
  | ordinal+1 => batch.changes[ordinal]?.map .change

structure BatchOk (batch : CommitBatch) (sequence : ℕ) : Prop where
  sequence_eq : batch.sequence = sequence
  changes_ne : batch.changes ≠ []
  transaction_ne : batch.transactionID.isZero = false

structure LogHolds (tree : CommitTree) (oldest latest : ℕ) (log : ℕ → CommitBatch) : Prop where
  find : ∀ q o, tree.find (commitKey q o) =
    if 0 < q ∧ oldest ≤ q ∧ q ≤ latest then batchValue (log q) o else none
  batch : ∀ q, 0 < q → oldest ≤ q → q ≤ latest → BatchOk (log q) q

theorem logHolds_empty (log : ℕ → CommitBatch) : LogHolds ∅ 0 0 log := by
  constructor
  · intro q o
    rw [find_empty,if_neg (by omega)]
  · intro q hpos _ hle
    omega

theorem find_putChanges (sequence ordinal : ℕ) (cs : List CommitChange) (tree : CommitTree) (q o : ℕ) :
    (putChanges sequence ordinal cs tree).find (commitKey q o) =
      if q = sequence ∧ ordinal ≤ o ∧ o < ordinal+cs.length then cs[o - ordinal]?.map .change
      else tree.find (commitKey q o) := by
  induction cs generalizing ordinal tree with
  | nil => rw [if_neg (by simp)]; rfl
  | cons c cs ih =>
    rw [putChanges,ih,find_insert]
    simp only [commitKey_inj,length_cons]
    by_cases hq : q = sequence
    · rcases lt_trichotomy o ordinal with ho | rfl | ho
      · rw [if_neg (by omega),if_neg (by omega),if_neg (by omega)]
      · rw [if_neg (by omega),if_pos ⟨hq,rfl⟩,if_pos (by omega),Nat.sub_self]
        rfl
      obtain ⟨n,hn⟩ : ∃ n, o - ordinal = n+1 := ⟨o - ordinal - 1,by omega⟩
      have hn' : o - (ordinal+1) = n := by omega
      rw [hn,hn',getElem?_cons_succ]
      by_cases hlt : o < ordinal+1+cs.length
      · rw [if_pos (by omega),if_pos (by omega)]
      · rw [if_neg (by omega),if_neg (by omega),if_neg (by omega)]
    · rw [if_neg (by omega),if_neg (by omega),if_neg (by omega)]

theorem readChanges_eq {sequence : ℕ}
    (h : ∀ i, i < cs.length → tree.find (commitKey sequence (ordinal+i)) = cs[i]?.map .change) :
    readChanges tree sequence ordinal cs.length = .ok cs := by
  induction cs generalizing ordinal with
  | nil => rfl
  | cons c cs ih =>
    have hfirst := h 0 (by simp)
    have hrest : readChanges tree sequence (ordinal+1) cs.length = .ok cs := by
      apply ih
      intro i hi
      have := h (i+1) (by simpa using hi)
      rwa [show ordinal + (i+1) = ordinal+1+i by omega,getElem?_cons_succ] at this
    rw [add_zero,getElem?_cons_zero,map_some] at hfirst
    simp only [length_cons,readChanges,hfirst,hrest,ok_bind]

theorem readCommit_of_find (hok : BatchOk b q) (hpos : 0 < q)
    (hfind : ∀ o, tree.find (commitKey q o) = batchValue b o) : readCommit tree q = .ok b := by
  obtain ⟨rfl,hne,hid⟩ := hok
  have hchanges : readChanges tree b.sequence 1 b.changes.length = .ok b.changes := by
    apply readChanges_eq
    intro i _
    rw [hfind,add_comm]
    rfl
  have hcount : b.changes.length ≠ 0 := by simpa using hne
  unfold readCommit
  rw [if_neg (by omega),hfind 0]
  simp only [batchValue,headerOf,hid,hcount,hchanges,ne_eq,not_true_eq_false,decide_false,
    Bool.or_false,Bool.false_eq_true,if_false,ok_bind]

variable {oldest latest : ℕ} {log : ℕ → CommitBatch} {tree' : CommitTree}

theorem LogHolds.readCommit_eq (h : LogHolds tree oldest latest log) (hpos : 0 < q) (hlo : oldest ≤ q) (hhi : q ≤ latest) :
    readCommit tree q = .ok (log q) := by
  apply readCommit_of_find (h.batch q hpos hlo hhi) hpos
  intro o
  rw [h.find,if_pos ⟨hpos,hlo,hhi⟩]

theorem mapM_encode_ne (hne : cs ≠ [])
    (h : cs.mapM encodeCommitChange = .ok encoded) : encoded ≠ [] := by
  cases cs with
  | nil => exact absurd rfl hne
  | cons c cs =>
    rw [mapM_cons] at h
    obtain ⟨e,-,h⟩ := bind_eq_ok.mp h
    obtain ⟨es,-,h⟩ := bind_eq_ok.mp h
    cases h
    exact cons_ne_nil _ _

/-- Appending extends the interval by the next sequence. -/
theorem LogHolds.append {tx : WriteTxn}
    {batch : CommitBatch} (h : LogHolds tree oldest latest log)
    (hseq : batch.sequence = latest+1) (hold : oldest ≤ latest+1)
    (happ : appendCommitToTree tx tree batch = .ok (tree',bytes)) :
    ∃ changes, batch.changes.mapM encodeCommitChange = .ok changes ∧ LogHolds tree' oldest (latest+1)
        (update log (latest+1) (batch.withChanges changes)) ∧
      commitBatchLogicalBytes (batch.withChanges changes) = .ok bytes := by
  unfold appendCommitToTree at happ
  split_ifs at happ with hguard
  simp only [Bool.or_eq_true,decide_eq_true_eq,not_or] at hguard
  obtain ⟨⟨⟨-,hid⟩,hne⟩,-⟩ := hguard
  obtain ⟨changes,hchanges,happ⟩ := bind_eq_ok.mp happ
  dsimp only at happ
  obtain ⟨total,htotal,happ⟩ := bind_eq_ok.mp happ
  cases happ
  refine ⟨changes,hchanges,⟨?_,?_⟩,htotal⟩
  · intro q o
    rw [find_putChanges,find_insert,h.find]
    simp only [commitKey_inj,hseq]
    by_cases hq : q = latest+1
    · subst hq
      rw [update_self]
      cases o with
      | zero =>
        rw [if_neg (by omega),if_pos (by omega),if_pos (by omega)]
        rfl
      | succ o =>
        have hlast : ∀ i, batchValue (batch.withChanges changes) (i+1) = changes[i]?.map .change := fun i => rfl
        by_cases ho : o < changes.length
        · rw [if_pos (by omega),if_pos (by omega),hlast,Nat.add_sub_cancel]
        · rw [if_neg (by omega),if_neg (by omega),if_neg (by omega),if_pos (by omega),hlast,
            getElem?_eq_none (by omega),map_none]
    rw [if_neg (by omega),if_neg (by omega),update_of_ne hq]
    by_cases hr : 0 < q ∧ oldest ≤ q ∧ q ≤ latest
    · rw [if_pos hr,if_pos (by omega)]
    · rw [if_neg hr,if_neg (by omega)]
  intro q hpos hlo hhi
  by_cases hq : q = latest+1
  · subst hq
    rw [update_self]
    exact ⟨hseq,mapM_encode_ne hne hchanges,Bool.eq_false_of_not_eq_true hid⟩
  · rw [update_of_ne hq]
    exact h.batch q hpos hlo (by omega)

theorem find_deleteOrdinals {sequence ordinal n : ℕ}
    (h : deleteOrdinals sequence ordinal n tree = .ok tree') (q o : ℕ) :
    tree'.find (commitKey q o) =
      if q = sequence ∧ ordinal ≤ o ∧ o < ordinal+n then none else tree.find (commitKey q o) := by
  induction n generalizing ordinal tree with
  | zero =>
    cases h
    rw [if_neg (by omega)]
  | succ n ih =>
    rw [deleteOrdinals] at h
    split_ifs at h
    rw [ih h,find_erase]
    simp only [commitKey_inj]
    by_cases hr : q = sequence ∧ ordinal ≤ o ∧ o < ordinal + (n+1)
    · rw [if_pos hr]
      by_cases ho : o = ordinal
      · rw [if_neg (by omega),if_pos ⟨hr.1,ho⟩]
      · rw [if_pos (by omega)]
    · rw [if_neg hr,if_neg (by omega),if_neg (by omega)]

theorem LogHolds.remove (h : LogHolds tree oldest latest log) (hpos : 0 < oldest) (hle : oldest ≤ latest)
    (hr : removeCommit tree retained oldest = .ok (tree',retained')) :
    LogHolds tree' (oldest+1) latest log ∧
      ∃ bytes, commitBatchLogicalBytes (log oldest) = .ok bytes ∧ retained = retained'+bytes := by
  unfold removeCommit at hr
  rw [h.readCommit_eq hpos le_rfl hle,ok_bind] at hr
  obtain ⟨bytes,hbytes,hr⟩ := bind_eq_ok.mp hr
  split_ifs at hr with hfew
  obtain ⟨t,ht,hr⟩ := bind_eq_ok.mp hr
  cases hr
  refine ⟨⟨?_,fun q hq hlo hhi => h.batch q hq (by omega) hhi⟩,bytes,hbytes,by omega⟩
  intro q o
  rw [find_deleteOrdinals ht,h.find]
  by_cases hq : q = oldest
  · subst hq
    rw [if_neg (by omega : ¬ (0 < q ∧ q+1 ≤ q ∧ q ≤ latest))]
    -- beyond its last change the removed batch stores nothing
    by_cases ho : o < (log q).changes.length+1
    · rw [if_pos (by omega)]
    rw [if_neg (by omega),if_pos (by omega)]
    cases o with
    | zero => omega
    | succ o => rw [batchValue,getElem?_eq_none (by omega),map_none]
  rw [if_neg (by omega)]
  by_cases hin : 0 < q ∧ oldest ≤ q ∧ q ≤ latest
  · rw [if_pos hin,if_pos (by omega)]
  · rw [if_neg hin,if_neg (by omega)]

theorem LogHolds.pruneLoop (h : LogHolds tree keepFrom latest log)
    (hpos : 0 < keepFrom) (hle : keepFrom ≤ latest)
    (hp : Logical.pruneLoop latest limit desired maxBytes fuel tree retained keepFrom = .ok (tree',retained',keepFrom')) :
    LogHolds tree' keepFrom' latest log ∧ keepFrom ≤ keepFrom' ∧ keepFrom' ≤ latest ∧ keepFrom' ≤ max keepFrom limit := by
  induction fuel generalizing tree retained keepFrom with
  | zero =>
    cases hp
    exact ⟨h,le_rfl,hle,le_max_left _ _⟩
  | succ fuel ih =>
    rw [Logical.pruneLoop] at hp
    split_ifs at hp with hgo
    · simp only [Bool.and_eq_true,decide_eq_true_eq] at hgo
      obtain ⟨⟨hlt,hlim⟩,-⟩ := hgo
      obtain ⟨⟨t,r⟩,hrem,hp⟩ := bind_eq_ok.mp hp
      obtain ⟨hlog,-⟩ := h.remove hpos hle hrem
      obtain ⟨hlog',hk,hl,hm⟩ := ih hlog (by omega) (by omega) hp
      exact ⟨hlog',by omega,hl,by omega⟩
    · cases hp
      exact ⟨h,le_rfl,hle,le_max_left _ _⟩

/-! ### The pinned limit -/

theorem replayLimit_le (pins : List ReaderPin) (latest : ℕ) :
    replayLimit pins latest ≤ latest ∧ ∀ pin ∈ pins, pin.replay = true → replayLimit pins latest ≤ pin.protected := by
  unfold replayLimit
  induction pins generalizing latest with
  | nil => simp
  | cons p pins ih =>
    rw [foldl_cons]
    obtain ⟨hle,hrest⟩ := ih (if p.replay then min latest p.protected else latest)
    have hstep : (if p.replay then min latest p.protected else latest) ≤ latest := by
      split_ifs
      · exact min_le_left _ _
      · exact le_rfl
    refine ⟨hle.trans hstep,?_⟩
    intro pin hpin hreplay
    rcases mem_cons.mp hpin with rfl | hpin
    · rw [if_pos hreplay] at hle ⊢
      exact hle.trans (min_le_right _ _)
    · exact hrest pin hpin hreplay

theorem buildLimitStep_ok (h : buildLimitStep oldest latest limit b = .ok limit') :
    limit' ≤ limit ∧ (b.phase ≠ .failed → latest ≤ b.appliedSequence ∨
      (oldest ≤ b.appliedSequence+1 ∧ limit' ≤ b.appliedSequence+1)) := by
  unfold buildLimitStep at h
  split_ifs at h with hskip hold
  · cases h
    simp only [Bool.or_eq_true,decide_eq_true_eq] at hskip
    exact ⟨le_rfl,fun hphase => .inl (hskip.resolve_left hphase)⟩
  · cases h
    exact ⟨min_le_left _ _,fun _ => .inr ⟨by omega,min_le_right _ _⟩⟩

theorem buildLimit_ok (h : buildLimit builds oldest latest limit = .ok limit') :
    limit' ≤ limit ∧ ∀ id b, (openTree builds).find id = some b → b.phase ≠ .failed →
      latest ≤ b.appliedSequence ∨ (oldest ≤ b.appliedSequence+1 ∧ limit' ≤ b.appliedSequence+1) := by
  cases builds with
  | none =>
    cases h
    exact ⟨le_rfl,by simp⟩
  | some tree =>
    rw [buildLimit] at h
    split_ifs at h
    let P : IndexBuildMeta → ℕ → Prop :=
      fun b n => b.phase ≠ .failed → latest ≤ b.appliedSequence ∨
        (oldest ≤ b.appliedSequence+1 ∧ n ≤ b.appliedSequence+1)
    have hmono : ∀ b n n', n' ≤ n → P b n → P b n' :=
      fun b n n' hn hb hphase => (hb hphase).imp_right (fun hle => ⟨hle.1,hn.trans hle.2⟩)
    obtain ⟨hle,hall⟩ := foldlM_descending (P := P) (fun _ _ _ hs => buildLimitStep_ok hs) hmono h
    refine ⟨hle,?_⟩
    intro id b hb
    exact hall b (mem_map.mpr ⟨(id,b),mem_entries.mpr hb,rfl⟩)

theorem floorStep_ok {floor : ℕ} (h : floorStep oldest latest floor c = .ok floor') :
    floor' ≤ floor ∧ c.ack < latest ∧ oldest ≤ c.ack+1 ∧ floor' ≤ c.ack+1 := by
  unfold floorStep at h
  split_ifs at h with hlate hold
  cases h
  exact ⟨min_le_left _ _,by omega,by omega,min_le_right _ _⟩

theorem durableConsumerRetentionFloor_ok {floor : ℕ}
    (h : durableConsumerRetentionFloor root oldest latest = .ok floor) :
    ∃ cs, durableConsumerCheckpoints root = .ok cs ∧
      ∀ c ∈ cs, c.ack < latest ∧ oldest ≤ c.ack+1 ∧ floor ≠ 0 ∧ floor ≤ c.ack+1 := by
  unfold durableConsumerRetentionFloor at h
  split_ifs at h with hguard
  simp only [Bool.or_eq_true,decide_eq_true_eq,not_or] at hguard
  obtain ⟨cs,hcs,h⟩ := bind_eq_ok.mp h
  refine ⟨cs,hcs,?_⟩
  split_ifs at h with hnil
  · simp [hnil]
  let P : Checkpoint → ℕ → Prop := fun c n => c.ack < latest ∧ oldest ≤ c.ack+1 ∧ n ≤ c.ack+1
  have hmono : ∀ c n n', n' ≤ n → P c n → P c n' := fun c n n' hn hc => ⟨hc.1,hc.2.1,hn.trans hc.2.2⟩
  obtain ⟨-,hall⟩ := foldlM_descending (P := P) (fun _ _ _ hs => floorStep_ok hs) hmono h
  have hne : floor ≠ 0 := by
    refine foldlM_invariant (I := (· ≠ 0)) ?_ (by omega : latest ≠ 0) h
    intro n c _ n' hn hs
    unfold floorStep at hs
    split_ifs at hs
    cases hs
    omega
  intro c hc
  exact ⟨(hall c hc).1,(hall c hc).2.1,hne,(hall c hc).2.2⟩

/-- The limit respects every replay pin, running build and saved checkpoint. -/
structure LimitOk (f : File) (base : DatabaseRoot) (oldest latest limit : ℕ) : Prop where
  lower : oldest ≤ limit
  upper : limit ≤ max latest oldest
  pins : ∀ id pin, f.readers.find id = some pin → pin.replay = true → limit ≤ max pin.protected oldest
  builds : ∀ id b, (openTree base.indexBuildCatalogRoot).find id = some b → b.phase ≠ .failed →
    latest ≤ b.appliedSequence ∨ limit ≤ b.appliedSequence+1
  checkpoints : ∃ cs, durableConsumerCheckpoints base.catalogRoot = .ok cs ∧
    ∀ c ∈ cs, c.ack < latest ∧ limit ≤ c.ack+1

theorem pinnedLimit_ok {tx : WriteTxn} (h : pinnedLimit tx oldest latest = .ok limit) :
    LimitOk tx.file tx.baseRoot oldest latest limit := by
  unfold pinnedLimit at h
  obtain ⟨fromBuilds,hbuilds,h⟩ := bind_eq_ok.mp h
  obtain ⟨floor,hfloor,h⟩ := bind_eq_ok.mp h
  cases h
  obtain ⟨hreplay,hpins⟩ := replayLimit_le (tx.file.readers.entries.map Prod.snd) latest
  obtain ⟨hle,hall⟩ := buildLimit_ok hbuilds
  obtain ⟨cs,hcs,hsaved⟩ := durableConsumerRetentionFloor_ok hfloor
  have hlimit : (if floor ≠ 0 then min fromBuilds floor else fromBuilds) ≤ fromBuilds := by
    split_ifs
    · exact min_le_left _ _
    · exact le_rfl
  constructor
  · exact le_max_right _ _
  · omega
  · intro id pin hpin hr
    have := hpins pin (mem_map.mpr ⟨(id,pin),mem_entries.mpr hpin,rfl⟩) hr
    omega
  · intro id b hb hphase
    have := hall id b hb hphase
    omega
  refine ⟨cs,hcs,?_⟩
  intro c hc
  obtain ⟨hack,hold,hne,hfl⟩ := hsaved c hc
  rw [if_pos hne]
  exact ⟨hack,by omega⟩

theorem pruneCommitTree_ok {tx tx' : WriteTxn} (h : LogHolds tree oldest latest log)
    (hp : pruneCommitTree tx tree oldest latest = .ok (tx',tree',keepFrom)) :
    LogHolds tree' keepFrom latest log ∧ 0 < oldest ∧ oldest ≤ keepFrom ∧ keepFrom ≤ latest ∧
      (∃ limit, LimitOk tx.file tx.baseRoot oldest latest limit ∧ keepFrom ≤ limit) ∧
      tx' = { tx with retainedCommitBytes := tx'.retainedCommitBytes, retentionEvaluated := true } := by
  unfold pruneCommitTree at hp
  split_ifs at hp with hguard
  simp only [Bool.or_eq_true,decide_eq_true_eq,not_or] at hguard
  obtain ⟨limit,hlimit,hp⟩ := bind_eq_ok.mp hp
  obtain ⟨⟨t,r,k⟩,hloop,hp⟩ := bind_eq_ok.mp hp
  cases hp
  obtain ⟨hlog,hlo,hhi,hmax⟩ := h.pruneLoop (by omega) (by omega) hloop
  have hok := pinnedLimit_ok hlimit
  refine ⟨hlog,by omega,hlo,hhi,⟨limit,hok,?_⟩,rfl⟩
  have := hok.lower
  omega

/-- Sequence 0 is no commit: with nothing retained the interval may start at the
next commit. -/
theorem LogHolds.start_at_one (h : LogHolds tree 0 latest log) : LogHolds tree 1 latest log := by
  constructor
  · intro q o
    rw [h.find]
    by_cases hq : 0 < q ∧ 0 ≤ q ∧ q ≤ latest
    · rw [if_pos hq,if_pos (by omega)]
    · rw [if_neg hq,if_neg (by omega)]
  · intro q hpos _ hhi
    exact h.batch q hpos (by omega) hhi

/-- What an append with retention does: the log gains the batch, loses a prefix
that no pin, build or consumer still needs, and only the byte total of the
transaction changes. -/
theorem appendCommitRetained_ok {tx tx' : WriteTxn} {root root' : Root CommitKey CommitValue}
    {keepFrom : ℕ} {batch : CommitBatch}
    (h : LogHolds (openTree root) oldest latest log) (hzero : oldest = 0 → latest = 0)
    (hseq : batch.sequence = latest+1)
    (ha : appendCommitRetained tx root oldest batch = .ok (tx',root',keepFrom)) :
    ∃ changes, batch.changes.mapM encodeCommitChange = .ok changes ∧
      LogHolds (openTree root') keepFrom (latest+1) (update log (latest+1) (batch.withChanges changes)) ∧
      0 < keepFrom ∧ oldest ≤ keepFrom ∧ keepFrom ≤ latest+1 ∧
      (∃ limit, LimitOk tx.file tx.baseRoot (if oldest = 0 then latest+1 else oldest) (latest+1) limit ∧
        keepFrom ≤ limit) ∧
      tx' = { tx with retainedCommitBytes := tx'.retainedCommitBytes, retentionEvaluated := true } := by
  unfold appendCommitRetained at ha
  obtain ⟨⟨tree,bytes⟩,happ,ha⟩ := bind_eq_ok.mp ha
  dsimp only at ha
  rw [hseq] at ha
  split_ifs at ha with hbytes hold hlate hlate
  · -- the first commit ever
    obtain ⟨⟨t,tr,k⟩,hprune,ha⟩ := bind_eq_ok.mp ha
    cases ha
    obtain rfl := hold
    obtain rfl := hzero rfl
    obtain ⟨changes,hchanges,hlog,-⟩ := h.append hseq (by omega) happ
    obtain ⟨hlog,hpos,hlo,hhi,hlim,htx⟩ := pruneCommitTree_ok hlog.start_at_one hprune
    exact ⟨changes,hchanges,hlog,hpos.trans_le hlo,zero_le _,hhi,by simpa using hlim,htx⟩
  obtain ⟨⟨t,tr,k⟩,hprune,ha⟩ := bind_eq_ok.mp ha
  cases ha
  obtain ⟨changes,hchanges,hlog,-⟩ := h.append hseq (by omega) happ
  obtain ⟨hlog,hpos,hlo,hhi,hlim,htx⟩ := pruneCommitTree_ok hlog hprune
  exact ⟨changes,hchanges,hlog,hpos.trans_le hlo,hlo,hhi,by simpa [hold] using hlim,htx⟩

end Meldbase.Logical
