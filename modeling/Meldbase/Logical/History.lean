import Meldbase.Logical.Session

/-! # The log over whole runs

A publication is a chain of commits over the root it started from.  Each commit
keeps the log exact, its byte total and the history that replay pins need; so do
whole publications, and with them every operation of a session.
-/
namespace Meldbase.Logical
open List Function SortedMap Outcome Nat

/-! ### Logical bytes -/

def batchBytes (batch : CommitBatch) : ℕ := commitHeaderBytes + (batch.changes.map encodedChangeBytes).sum
def treeBytes (tree : CommitTree) : ℕ := tree.weight storedCommitLogicalBytes

variable {batch : CommitBatch} {tree : CommitTree} {tx : WriteTxn} {tree' : CommitTree}
  {oldest latest retained retained' : ℕ} {log : ℕ → CommitBatch} {keepFrom : ℕ} {changes : List CommitChange} {f : File}
  {base root : DatabaseRoot} {log' : ℕ → CommitBatch}

theorem commitBatchLogicalBytes_ok (h : commitBatchLogicalBytes batch = .ok bytes) :
    bytes = batchBytes batch := by
  unfold commitBatchLogicalBytes at h
  have hsum := foldlM_from_start
    (I := fun done total => total = commitHeaderBytes + (done.map encodedChangeBytes).sum) ?_ rfl h
  · exact hsum
  rintro done total c total' rfl hstep
  unfold addLogicalBytes at hstep
  obtain ⟨-,hstep⟩ := guard_eq_ok.mp hstep
  cases hstep
  rw [map_append,List.sum_append,map_singleton,sum_singleton]
  omega

theorem calculateRetainedCommitBytes_eq (h : treeBytes tree ≤ maxUint64) :
    calculateRetainedCommitBytes tree = .ok (treeBytes tree) := by
  have hfold : ∀ (es : List (CommitKey × CommitValue)) (total : ℕ),
      total + (es.map (fun e => storedCommitLogicalBytes e.2)).sum ≤ maxUint64 →
      (es.map Prod.snd).foldlM (fun total value =>
        if maxUint64 < total+storedCommitLogicalBytes value then Except.error Storage.StorageError.corrupt
        else .ok (total+storedCommitLogicalBytes value)) total =
          .ok (total + (es.map (fun e => storedCommitLogicalBytes e.2)).sum) := by
    intro es
    induction es with
    | nil => intro total _; rfl
    | cons e es ih =>
      intro total hle
      rw [map_cons,sum_cons] at hle
      rw [map_cons,foldlM_cons,if_neg (by omega),ok_bind,ih _ (by omega),map_cons,sum_cons,add_assoc]
  have hall := hfold tree.entries 0 (by rw [zero_add]; exact h)
  rw [zero_add] at hall
  exact hall

theorem treeBytes_putChanges {sequence : ℕ}
    (hfree : ∀ o, ordinal ≤ o → tree.find (commitKey sequence o) = none) :
    treeBytes (putChanges sequence ordinal cs tree) = treeBytes tree + (cs.map encodedChangeBytes).sum := by
  induction cs generalizing ordinal tree with
  | nil => rfl
  | cons c cs ih =>
    have hrest : ∀ o, ordinal+1 ≤ o →
        (tree.insert (commitKey sequence ordinal) (.change c)).find (commitKey sequence o) = none := by
      intro o ho
      rw [find_insert,if_neg (fun heq => by have := (commitKey_inj.mp heq).2; omega)]
      exact hfree o (by omega)
    have hinsert : treeBytes (tree.insert (commitKey sequence ordinal) (.change c)) =
        treeBytes tree + encodedChangeBytes c :=
      weight_insert_new _ _ (hfree ordinal le_rfl)
    rw [putChanges,ih hrest,hinsert,map_cons,sum_cons,add_assoc]

theorem appendCommitToTree_bytes (hfree : ∀ o, tree.find (commitKey batch.sequence o) = none)
    (h : appendCommitToTree tx tree batch = .ok (tree',bytes)) : treeBytes tree' = treeBytes tree + bytes := by
  unfold appendCommitToTree at h
  obtain ⟨-,h⟩ := guard_eq_ok.mp h
  obtain ⟨changes,-,h⟩ := bind_eq_ok.mp h
  obtain ⟨total,htotal,h⟩ := bind_eq_ok.mp h
  cases h
  have hrest : ∀ o, 1 ≤ o → (tree.insert (commitKey batch.sequence 0)
      (.header (headerOf (batch.withChanges changes)))).find (commitKey batch.sequence o) = none := by
    intro o ho
    rw [find_insert,if_neg (fun heq => by have := (commitKey_inj.mp heq).2; omega)]
    exact hfree o
  have hheader : treeBytes (tree.insert (commitKey batch.sequence 0) (.header (headerOf (batch.withChanges changes)))) =
      treeBytes tree + commitHeaderBytes := weight_insert_new _ _ (hfree 0)
  have hbytes : bytes = commitHeaderBytes + (changes.map encodedChangeBytes).sum := commitBatchLogicalBytes_ok htotal
  rw [treeBytes_putChanges hrest,hheader,hbytes,add_assoc]

theorem deleteOrdinals_bytes {sequence : ℕ} {values : List CommitValue}
    (hvalues : ∀ i, i < values.length → tree.find (commitKey sequence (ordinal+i)) = values[i]?)
    (h : deleteOrdinals sequence ordinal values.length tree = .ok tree') :
    treeBytes tree' + (values.map storedCommitLogicalBytes).sum = treeBytes tree := by
  induction values generalizing ordinal tree with
  | nil =>
    cases h
    rfl
  | cons v values ih =>
    have hfirst : tree.find (commitKey sequence ordinal) = some v := by
      simpa using hvalues 0 (by simp)
    rw [length_cons,deleteOrdinals] at h
    obtain ⟨-,h⟩ := guard_eq_ok.mp h
    have hrest : ∀ i, i < values.length → (tree.erase (commitKey sequence ordinal)).find
        (commitKey sequence (ordinal+1+i)) = values[i]? := by
      intro i hi
      rw [find_erase,if_neg (fun heq => by have := (commitKey_inj.mp heq).2; omega)]
      have := hvalues (i+1) (by simpa using hi)
      rwa [show ordinal + (i+1) = ordinal+1+i by omega,List.getElem?_cons_succ] at this
    have htail := ih hrest h
    have herase : treeBytes (tree.erase (commitKey sequence ordinal)) + storedCommitLogicalBytes v = treeBytes tree :=
      weight_erase _ hfirst
    rw [map_cons,sum_cons]
    omega

def batchValues (batch : CommitBatch) : List CommitValue := .header (headerOf batch) :: batch.changes.map .change

theorem batchValues_getElem? (batch : CommitBatch) (o : ℕ) : (batchValues batch)[o]? = batchValue batch o := by
  cases o with
  | zero => rfl
  | succ o => rw [batchValues,List.getElem?_cons_succ,List.getElem?_map,batchValue]

theorem sum_batchValues (batch : CommitBatch) :
    ((batchValues batch).map storedCommitLogicalBytes).sum = batchBytes batch := by
  rw [batchValues,map_cons,sum_cons,map_map]
  rfl

theorem removeCommit_bytes (h : LogHolds tree oldest latest log) (hpos : 0 < oldest) (hle : oldest ≤ latest)
    (hbytes : treeBytes tree = retained) (hr : removeCommit tree retained oldest = .ok (tree',retained')) :
    treeBytes tree' = retained' := by
  unfold removeCommit at hr
  rw [h.readCommit_eq hpos le_rfl hle,ok_bind] at hr
  obtain ⟨removed,hremoved,hr⟩ := bind_eq_ok.mp hr
  obtain ⟨hfew,hr⟩ := guard_eq_ok.mp hr
  obtain ⟨t,ht,hr⟩ := bind_eq_ok.mp hr
  cases hr
  have hlength : (log oldest).changes.length+1 = (batchValues (log oldest)).length := by
    simp [batchValues]
  rw [hlength] at ht
  have hvalues : ∀ i, i < (batchValues (log oldest)).length →
      tree.find (commitKey oldest (0+i)) = (batchValues (log oldest))[i]? := by
    intro i _
    rw [zero_add,h.find,if_pos ⟨hpos,le_rfl,hle⟩,batchValues_getElem?]
  have hdeleted := deleteOrdinals_bytes hvalues ht
  rw [sum_batchValues,← commitBatchLogicalBytes_ok hremoved] at hdeleted
  omega

theorem removeCommit_le {sequence : ℕ}
    (h : removeCommit tree retained sequence = .ok (tree',retained')) : retained' ≤ retained := by
  unfold removeCommit at h
  obtain ⟨stored,-,h⟩ := bind_eq_ok.mp h
  obtain ⟨removed,-,h⟩ := bind_eq_ok.mp h
  obtain ⟨-,h⟩ := guard_eq_ok.mp h
  obtain ⟨t,-,h⟩ := bind_eq_ok.mp h
  cases h
  exact sub_le _ _

theorem pruneLoop_bytes (h : LogHolds tree keepFrom latest log) (hpos : 0 < keepFrom)
    (hle : keepFrom ≤ latest) (hbytes : treeBytes tree = retained)
    (hp : pruneLoop latest limit desired maxBytes fuel tree retained keepFrom = .ok (tree',retained',keepFrom')) :
    treeBytes tree' = retained' ∧ retained' ≤ retained := by
  induction fuel generalizing tree retained keepFrom with
  | zero =>
    cases hp
    exact ⟨hbytes,le_rfl⟩
  | succ fuel ih =>
    rw [pruneLoop] at hp
    split_ifs at hp with hgo
    · simp only [Bool.and_eq_true,decide_eq_true_eq] at hgo
      obtain ⟨⟨hlt,-⟩,-⟩ := hgo
      obtain ⟨⟨t,r⟩,hrem,hp⟩ := bind_eq_ok.mp hp
      obtain ⟨hlog,-⟩ := h.remove hpos hle hrem
      obtain ⟨hfinal,hmono⟩ := ih hlog (by omega) (by omega) (removeCommit_bytes h hpos hle hbytes hrem) hp
      exact ⟨hfinal,hmono.trans (removeCommit_le hrem)⟩
    · cases hp
      exact ⟨hbytes,le_rfl⟩

theorem pruneCommitTree_bytes (h : LogHolds tree oldest latest log) (hbytes : treeBytes tree = tx.retainedCommitBytes)
    (hp : pruneCommitTree tx tree oldest latest = .ok (tx',tree',keepFrom)) :
    treeBytes tree' = tx'.retainedCommitBytes ∧ tx'.retainedCommitBytes ≤ tx.retainedCommitBytes := by
  unfold pruneCommitTree at hp
  obtain ⟨hguard,hp⟩ := guard_eq_ok.mp hp
  simp only [Bool.or_eq_true,decide_eq_true_eq,not_or] at hguard
  obtain ⟨limit,-,hp⟩ := bind_eq_ok.mp hp
  obtain ⟨⟨t,r,k⟩,hloop,hp⟩ := bind_eq_ok.mp hp
  cases hp
  exact pruneLoop_bytes h (by omega) (by omega) hbytes hloop

theorem LogHolds.removeCommits (h : LogHolds tree oldest latest log) (hpos : 0 < oldest) (hle : oldest+n ≤ latest+1)
    (hr : Logical.removeCommits oldest n tree retained = .ok (tree',retained')) :
    LogHolds tree' (oldest+n) latest log := by
  induction n generalizing oldest tree retained with
  | zero =>
    cases hr
    exact h
  | succ n ih =>
    rw [Logical.removeCommits] at hr
    obtain ⟨⟨t,r⟩,hrem,hr⟩ := bind_eq_ok.mp hr
    obtain ⟨hlog,-⟩ := h.remove hpos (by omega) hrem
    have := ih hlog (by omega) (by omega) hr
    rwa [add_right_comm] at this

theorem removeCommits_bytes (h : LogHolds tree oldest latest log) (hpos : 0 < oldest) (hle : oldest+n ≤ latest+1)
    (hbytes : treeBytes tree = retained) (hr : removeCommits oldest n tree retained = .ok (tree',retained')) :
    treeBytes tree' = retained' := by
  induction n generalizing oldest tree retained with
  | zero =>
    cases hr
    exact hbytes
  | succ n ih =>
    rw [removeCommits] at hr
    obtain ⟨⟨t,r⟩,hrem,hr⟩ := bind_eq_ok.mp hr
    obtain ⟨hlog,-⟩ := h.remove hpos (by omega) hrem
    exact ih hlog (by omega) (by omega) (removeCommit_bytes h hpos (by omega) hbytes hrem) hr

/-! ### What a log in order is -/

structure EncodedBatch (batch : CommitBatch) : Prop where
  changes : ∀ c ∈ batch.changes, ∃ submitted, encodeCommitChange submitted = .ok c
  count : batch.changes.length ≤ maxUint32

theorem appendCommitToTree_encoded (h : appendCommitToTree tx tree batch = .ok (tree',bytes))
    (hchanges : batch.changes.mapM encodeCommitChange = .ok changes) : EncodedBatch (batch.withChanges changes) := by
  unfold appendCommitToTree at h
  obtain ⟨hguard,-⟩ := guard_eq_ok.mp h
  simp only [Bool.or_eq_true,decide_eq_true_eq,not_or,not_lt] at hguard
  constructor
  · intro c hc
    obtain ⟨submitted,-,hsubmitted⟩ := mapM_mem hchanges c hc
    exact ⟨submitted,hsubmitted⟩
  have hlength : changes.length = batch.changes.length := length_mapM hchanges
  have hfew := hguard.2
  rw [CommitBatch.withChanges]
  dsimp only
  omega

theorem appendCommitRetained_encoded {root root' : Root CommitKey CommitValue}
    (h : appendCommitRetained tx root oldest batch = .ok (tx',root',keepFrom))
    (hchanges : batch.changes.mapM encodeCommitChange = .ok changes) : EncodedBatch (batch.withChanges changes) := by
  unfold appendCommitRetained at h
  obtain ⟨⟨tree,added⟩,happend,-⟩ := bind_eq_ok.mp h
  exact appendCommitToTree_encoded happend hchanges

structure Logged (readers : SortedMap ℕ ReaderPin) (root : DatabaseRoot) (bytes : ℕ) (log : ℕ → CommitBatch) : Prop where
  zero : root.oldestRetainedSequence = 0 → root.commitSequence = 0
  holds : LogHolds (openTree root.commitLogRoot) root.oldestRetainedSequence root.commitSequence log
  bytes_eq : treeBytes (openTree root.commitLogRoot) = bytes
  bytes_le : bytes ≤ maxUint64
  encoded : ∀ q, 0 < q → root.oldestRetainedSequence ≤ q → q ≤ root.commitSequence → EncodedBatch (log q)
  pins : ∀ id pin, readers.find id = some pin → pin.replay = true →
    pin.sequence ≤ root.commitSequence ∧ root.oldestRetainedSequence ≤ pin.sequence+1

theorem LogHolds.next_free {sequence : ℕ} (h : LogHolds tree oldest latest log) (hseq : sequence = latest+1) (o : ℕ) :
    tree.find (commitKey sequence o) = none := by
  rw [h.find,if_neg (by omega)]

theorem appendCommitRetained_bytes {root root' : Root CommitKey CommitValue}
    (h : LogHolds (openTree root) oldest latest log) (hzero : oldest = 0 → latest = 0)
    (hseq : batch.sequence = latest+1) (hbytes : treeBytes (openTree root) = tx.retainedCommitBytes)
    (ha : appendCommitRetained tx root oldest batch = .ok (tx',root',keepFrom)) :
    treeBytes (openTree root') = tx'.retainedCommitBytes ∧ tx'.retainedCommitBytes ≤ maxUint64 := by
  unfold appendCommitRetained at ha
  obtain ⟨⟨tree,added⟩,happ,ha⟩ := bind_eq_ok.mp ha
  dsimp only at ha
  have hadded := appendCommitToTree_bytes (h.next_free hseq) happ
  rw [hseq] at ha
  obtain ⟨hfits,ha⟩ := guard_eq_ok.mp ha
  obtain ⟨hlate,ha⟩ := guard_eq_ok.mp ha
  obtain ⟨⟨t,tr,k⟩,hprune,ha⟩ := bind_eq_ok.mp ha
  cases ha
  have hstart : ∃ log', LogHolds tree (if oldest = 0 then latest+1 else oldest) (latest+1) log' := by
    split_ifs with hold
    · obtain rfl := hold
      obtain rfl := hzero rfl
      obtain ⟨changes,-,hlog,-⟩ := h.append hseq (by omega) happ
      exact ⟨_,hlog.start_at_one⟩
    rw [if_neg hold] at hlate
    obtain ⟨changes,-,hlog,-⟩ := h.append hseq (by omega) happ
    exact ⟨_,hlog⟩
  obtain ⟨log',hlog⟩ := hstart
  obtain ⟨hfinal,hmono⟩ := pruneCommitTree_bytes hlog (by dsimp only; omega) hprune
  dsimp only at hmono ⊢
  exact ⟨hfinal,by omega⟩

theorem LimitOk.pins_kept (h : LimitOk f base oldest (latest+1) limit) (hkeep : keepFrom ≤ limit)
    (hpins : ∀ id pin, f.readers.find id = some pin → pin.replay = true →
      pin.sequence ≤ latest ∧ oldest ≤ pin.sequence+1) :
    ∀ id pin, f.readers.find id = some pin → pin.replay = true →
      pin.sequence ≤ latest+1 ∧ keepFrom ≤ pin.sequence+1 := by
  intro id pin hpin hreplay
  have hprotected : pin.protected ≤ pin.sequence+1 := by
    unfold ReaderPin.protected
    split_ifs <;> omega
  have hlimit := h.pins id pin hpin hreplay
  have hserved := hpins id pin hpin hreplay
  omega

theorem encoded_update (h : ∀ q, 0 < q → oldest ≤ q → q ≤ latest → EncodedBatch (log q)) (hle : oldest ≤ keepFrom)
    (hbatch : EncodedBatch batch) :
    ∀ q, 0 < q → keepFrom ≤ q → q ≤ latest+1 → EncodedBatch (update log (latest+1) batch q) := by
  intro q hpos hlo hhi
  by_cases hq : q = latest+1
  · rw [hq,update_self]
    exact hbatch
  · rw [update_of_ne hq]
    exact h q hpos (by omega) (by omega)

def CutWithin (f : File) (root : DatabaseRoot) : Prop :=
  ∃ oldest limit, LimitOk f f.root oldest root.commitSequence limit ∧ root.oldestRetainedSequence ≤ limit

theorem Logged.appends (h : Logged f.readers base tx.retainedCommitBytes log) (ha : Appends tx base batch tx' root)
    (hfile : tx.file = f) (hbase : tx.baseRoot = f.root) (hseq : tx.sequence = base.commitSequence+1) :
    ∃ changes, batch.changes.mapM encodeCommitChange = .ok changes ∧
      Logged f.readers root tx'.retainedCommitBytes
        (update log (base.commitSequence+1) (batch.withChanges changes)) ∧ CutWithin f root := by
  have hbatch := ha.batch_sequence.trans hseq
  obtain ⟨changes,hchanges,hlog,hpos,hlower,-,⟨limit,hlimit,hkeep⟩,-⟩ :=
    appendCommitRetained_ok h.holds h.zero hbatch ha.append
  have hencoded := encoded_update h.encoded hlower (appendCommitRetained_encoded ha.append hchanges)
  obtain ⟨hbytes,hle⟩ := appendCommitRetained_bytes h.holds h.zero hbatch h.bytes_eq ha.append
  have hroot : root.commitSequence = base.commitSequence+1 := ha.sequence.trans hseq
  rw [hfile,hbase] at hlimit
  refine ⟨changes,hchanges,⟨by omega,hroot ▸ hlog,hbytes,hle,hroot ▸ hencoded,hroot ▸ hlimit.pins_kept hkeep ?_⟩,
    _,limit,hroot ▸ hlimit,hkeep⟩
  intro id pin hpin hreplay
  obtain ⟨hlatest,hold⟩ := h.pins id pin hpin hreplay
  have hzero := h.zero
  split_ifs <;> omega

/-! ### The collections of every commit -/

def collectionsAt (log : ℕ → CommitBatch) (q : ℕ) : SortedMap Bytes CollectionMeta :=
  if q = 0 then ∅ else (openCatalog (log q).catalogRoot).collections

theorem collectionsAt_congr (h : log' q = log q) : collectionsAt log' q = collectionsAt log q := by
  unfold collectionsAt
  rw [h]

structure WroteAt [Sha256] (log : ℕ → CommitBatch) (q : ℕ) (base root : DatabaseRoot) (batch : CommitBatch)
    (changes : List CommitChange) : Prop where
  writes : Writes base batch root
  base_sequence : base.commitSequence = q
  before : (openCatalog base.catalogRoot).collections = collectionsAt log q
  encoded : batch.changes.mapM encodeCommitChange = .ok changes
  stored : log (q+1) = batch.withChanges changes

theorem WroteAt.after [Sha256] (h : WroteAt log q base root batch changes) :
    collectionsAt log (q+1) = (openCatalog batch.catalogRoot).collections := by
  unfold collectionsAt
  rw [if_neg (succ_ne_zero q),h.stored]
  rfl

theorem WroteAt.congr [Sha256] (h : WroteAt log q base root batch changes) (hq : log' q = log q)
    (hnext : log' (q+1) = log (q+1)) : WroteAt log' q base root batch changes :=
  ⟨h.writes,h.base_sequence,by rw [collectionsAt_congr hq]; exact h.before,h.encoded,hnext.trans h.stored⟩

/-- Every commit up to `root` was written over the one before it, and `root` has the
collections of the last. -/
structure Written [Sha256] (root : DatabaseRoot) (log : ℕ → CommitBatch) : Prop where
  current : (openCatalog root.catalogRoot).collections = collectionsAt log root.commitSequence
  wrote : ∀ q < root.commitSequence, ∃ base root' batch changes, WroteAt log q base root' batch changes

/-- One more commit. -/
theorem Written.append [Sha256] (h : Written root log) (hwrites : Writes root batch root')
    (hsequence : root'.commitSequence = root.commitSequence+1)
    (hcollections : (openCatalog root'.catalogRoot).collections = (openCatalog batch.catalogRoot).collections)
    (hencoded : batch.changes.mapM encodeCommitChange = .ok changes) :
    Written root' (update log (root.commitSequence+1) (batch.withChanges changes)) := by
  have hbelow : ∀ q ≤ root.commitSequence,
      update log (root.commitSequence+1) (batch.withChanges changes) q = log q :=
    fun q hq => update_of_ne (by omega) _ _
  have hlast : WroteAt (update log (root.commitSequence+1) (batch.withChanges changes)) root.commitSequence
      root root' batch changes :=
    ⟨hwrites,rfl,by rw [collectionsAt_congr (hbelow _ le_rfl)]; exact h.current,hencoded,update_self _ _ _⟩
  constructor
  · rw [hcollections,hsequence,hlast.after]
  intro q hq
  rw [hsequence] at hq
  rcases Nat.lt_succ_iff_lt_or_eq.mp hq with hlt | rfl
  · obtain ⟨base,root1,batch1,changes1,hwrote⟩ := h.wrote q hlt
    exact ⟨base,root1,batch1,changes1,hwrote.congr (hbelow q (by omega)) (hbelow (q+1) (by omega))⟩
  · exact ⟨_,_,_,_,hlast⟩

theorem Written.of_root [Sha256] (h : Written root log)
    (hsequence : root'.commitSequence = root.commitSequence)
    (hcollections : (openCatalog root'.catalogRoot).collections = (openCatalog root.catalogRoot).collections) :
    Written root' log :=
  ⟨by rw [hcollections,hsequence]; exact h.current,by rw [hsequence]; exact h.wrote⟩

/-! ### Publications as chains of commits -/

inductive Commits [Sha256] (f : File) : WriteTxn → DatabaseRoot → List CommitBatch → Prop
  /-- Nothing committed yet, or an update that never commits. -/
  | start {tx : WriteTxn} {root : DatabaseRoot} (file : tx.file = f) (base : tx.baseRoot = f.root)
      (bytes : tx.retainedCommitBytes = f.retainedCommitBytes) (log : root.commitLogRoot = f.root.commitLogRoot)
      (oldest : root.oldestRetainedSequence = f.root.oldestRetainedSequence)
      (sequence : root.commitSequence = f.root.commitSequence)
      (collections : (openCatalog root.catalogRoot).collections = (openCatalog f.root.catalogRoot).collections)
      (count : root.collectionCount = f.root.collectionCount) : Commits f tx root []
  | append {tx tx' : WriteTxn} {root root' : DatabaseRoot} {done : List CommitBatch} {batch : CommitBatch}
      (before : Commits f tx root done)
      (commit : Appends { tx with sequence := root.commitSequence+1 } root batch tx' root')
      (writes : Writes root batch root') : Commits f tx' root' (done ++ [batch])
  | retain {tx : WriteTxn} {root : DatabaseRoot} {keepFrom : ℕ} {transactionID : Identifier} {committedAt : ℕ}
      {kept appended tree : CommitTree} {retained added oldest : ℕ}
      (cut : Retained (f.beginUpdate 1) keepFrom transactionID committedAt tx root kept appended tree retained added oldest) :
      Commits f tx root [retentionMarker (f.beginUpdate 1) keepFrom transactionID committedAt]

structure Committed [Sha256] (f : File) (log : ℕ → CommitBatch) (tx : WriteTxn) (root : DatabaseRoot) (done : List CommitBatch)
    (log' : ℕ → CommitBatch) : Prop where
  file : tx.file = f
  base : tx.baseRoot = f.root
  evaluated : tx.retentionEvaluated = true ∨ tx.retainedCommitBytes = f.retainedCommitBytes
  sequence : root.commitSequence = f.root.commitSequence+done.length
  logged : Logged f.readers root tx.retainedCommitBytes log'
  written : Written root log'
  agree : ∀ q ≤ f.root.commitSequence, log' q = log q
  stored : ∀ i batch, done[i]? = some batch → ∃ changes, batch.changes.mapM encodeCommitChange = .ok changes ∧
    log' (f.root.commitSequence+i+1) = batch.withChanges changes
  cut : (done = [] ∧ root.oldestRetainedSequence = f.root.oldestRetainedSequence) ∨ CutWithin f root

theorem Logged.retain (h : Logged f.readers f.root f.retainedCommitBytes log)
    (hr : Retained (f.beginUpdate 1) keepFrom transactionID committedAt tx root kept appended tree retained added oldest) :
    ∃ changes, (retentionMarker (f.beginUpdate 1) keepFrom transactionID committedAt).changes.mapM encodeCommitChange =
        .ok changes ∧
      Logged f.readers root tx.retainedCommitBytes (update log (f.root.commitSequence+1)
        ((retentionMarker (f.beginUpdate 1) keepFrom transactionID committedAt).withChanges changes)) ∧ CutWithin f root := by
  have hlower : f.root.oldestRetainedSequence ≤ keepFrom := hr.lower
  have hupper : keepFrom ≤ f.root.commitSequence+1 := hr.upper
  have hpos : f.root.oldestRetainedSequence ≠ 0 := hr.oldest_pos
  have hremoved : removeCommits f.root.oldestRetainedSequence (keepFrom - f.root.oldestRetainedSequence)
      (openTree f.root.commitLogRoot) f.retainedCommitBytes = .ok (kept,retained) := hr.removed
  have hkept := h.holds.removeCommits (by omega) (by omega) hremoved
  have hkeptBytes := removeCommits_bytes h.holds (by omega) (by omega) h.bytes_eq hremoved
  rw [Nat.add_sub_cancel' hlower] at hkept
  have hadded := appendCommitToTree_bytes (hkept.next_free rfl) hr.append
  obtain ⟨changes,hchanges,happended,-⟩ := hkept.append rfl hupper hr.append
  obtain ⟨htree,-,hlo,hhi,⟨limit,hlimit,hkeep⟩,htx⟩ := pruneCommitTree_ok happended hr.prune
  obtain ⟨hbytes,hmono⟩ := pruneCommitTree_bytes happended (by dsimp only; omega) hr.prune
  have hle := hr.bytes_le
  dsimp only at hmono
  have hseq : root.commitSequence = f.root.commitSequence+1 := by
    rw [hr.root_eq,htx]
    rfl
  have holdest : root.oldestRetainedSequence = oldest := by rw [hr.root_eq]
  have hlog : openTree root.commitLogRoot = tree := by
    rw [hr.root_eq]
    rfl
  refine ⟨changes,hchanges,⟨by omega,?_,?_,by omega,?_,?_⟩,_,limit,hseq ▸ hlimit,holdest ▸ hkeep⟩
  · rw [hlog,holdest,hseq]
    exact htree
  · rw [hlog]
    exact hbytes
  · rw [holdest,hseq]
    exact encoded_update h.encoded (hlower.trans hlo) (appendCommitToTree_encoded hr.append hchanges)
  · rw [holdest,hseq]
    exact hlimit.pins_kept hkeep (fun id pin hpin hreplay => ⟨(h.pins id pin hpin hreplay).1,hr.pins id pin hpin hreplay⟩)

theorem Commits.committed [Sha256] (hlog : Logged f.readers f.root f.retainedCommitBytes log) (hwritten : Written f.root log)
    (h : Commits f tx root done) : ∃ log', Committed f log tx root done log' := by
  induction h with
  | start file base bytes log' oldest sequence collections count =>
    refine ⟨log,file,base,.inr bytes,by simpa using sequence,?_,hwritten.of_root sequence collections,
      fun _ _ => rfl,by simp,.inl ⟨rfl,oldest⟩⟩
    constructor
    · rw [oldest,sequence]
      exact hlog.zero
    · rw [log',oldest,sequence]
      exact hlog.holds
    · rw [log',bytes]
      exact hlog.bytes_eq
    · rw [bytes]
      exact hlog.bytes_le
    · rw [oldest,sequence]
      exact hlog.encoded
    · rw [oldest,sequence]
      exact hlog.pins
  | append before commit writes ih =>
    rename_i tx tx' root root' done batch
    obtain ⟨log',hc⟩ := ih
    have hlogged : Logged f.readers root
        ({ tx with sequence := root.commitSequence+1 } : WriteTxn).retainedCommitBytes log' := hc.logged
    obtain ⟨changes,hchanges,hnext,hcut⟩ := hlogged.appends commit hc.file hc.base rfl
    have htx := commit.txn
    have hseq := hc.sequence
    refine ⟨_,?_,?_,?_,?_,hnext,hc.written.append writes commit.sequence (by rw [commit.catalog]) hchanges,?_,?_,.inr hcut⟩
    · rw [htx]
      exact hc.file
    · rw [htx]
      exact hc.base
    · left
      rw [htx]
    · rw [commit.sequence,length_append,length_singleton]
      dsimp only
      omega
    · intro q hq
      rw [update_of_ne (by omega)]
      exact hc.agree q hq
    intro i b hb
    rcases lt_or_ge i done.length with hi | hi
    · rw [List.getElem?_append_left hi] at hb
      obtain ⟨stored,hstored,heq⟩ := hc.stored i b hb
      exact ⟨stored,hstored,by rw [update_of_ne (by omega),heq]⟩
    rw [List.getElem?_append_right hi,List.getElem?_singleton] at hb
    split_ifs at hb with hlast
    cases hb
    refine ⟨changes,hchanges,?_⟩
    rw [show f.root.commitSequence+i+1 = root.commitSequence+1 by omega,update_self]
  | retain cut =>
    rename_i tx root keepFrom transactionID committedAt kept appended tree retained added oldest
    obtain ⟨changes,hchanges,hnext,hcut⟩ := hlog.retain cut
    have htx := pruneCommitTree_txn cut.prune
    have hsequence : root.commitSequence = f.root.commitSequence+1 := by
      rw [cut.root_eq,htx]
      rfl
    have hcatalog : root.catalogRoot = f.root.catalogRoot := by rw [cut.root_eq]; rfl
    have hwrites : Writes f.root (retentionMarker (f.beginUpdate 1) keepFrom transactionID committedAt) root :=
      .quiet rfl (by simp [retentionMarker,catalogChange]) (by rw [cut.root_eq]; rfl)
    refine ⟨_,?_,?_,?_,hsequence,hnext,hwritten.append hwrites hsequence (by rw [hcatalog]; rfl) hchanges,?_,?_,.inr hcut⟩
    · rw [htx]
      rfl
    · rw [htx]
      rfl
    · left
      rw [htx]
    · intro q hq
      rw [update_of_ne (by omega)]
    intro i b hb
    rw [List.getElem?_singleton] at hb
    split_ifs at hb with hfirst
    cases hb
    exact ⟨changes,hchanges,by rw [hfirst,add_zero,update_self]⟩

theorem BuildPut.commits [Sha256] (h : BuildPut tx0 build stored tx root) (hfile : tx0.file = f) (hbase : tx0.baseRoot = f.root)
    (hbytes : tx0.retainedCommitBytes = f.retainedCommitBytes) : Commits f tx root [] := by
  have hroot := h.root_eq
  rw [hbase] at hroot
  refine .start ?_ ?_ ?_ (by rw [hroot]) (by rw [hroot]) (by rw [hroot]) (by rw [hroot]) (by rw [hroot])
  · rw [h.txn]
    exact hfile
  · rw [h.txn]
    exact hbase
  · rw [h.txn]
    exact hbytes

theorem groupStep_commits [Sha256] (h : Commits f acc.1 acc.2 done) (hs : groupStep acc t = .ok acc') :
    ∃ batch, Commits f acc'.1 acc'.2 (done ++ [batch]) := by
  unfold groupStep at hs
  obtain ⟨-,hs⟩ := guard_eq_ok.mp hs
  obtain ⟨work,states,published,catalog,changes,hd⟩ := applyDocuments_ok hs
  exact ⟨_,h.append hd.appends (.documents rfl (by simp) hd)⟩

theorem Publication.commits [Sha256] {p : Publication} (h : p.apply f = .ok f') :
    ∃ advance tx root done, Updated f advance tx root f' ∧ Commits f tx root done := by
  have hone : Commits f (f.beginUpdate 1) f.root [] := .start rfl rfl rfl rfl rfl rfl rfl rfl
  cases p with
  | documents t records =>
    obtain ⟨tx,root,_,_,_,_,_,hup,hnodup,hd⟩ := applyDocumentTransaction_ok h
    exact ⟨1,tx,root,_,hup,hone.append hd.appends (.documents rfl hnodup hd)⟩
  | group ts =>
    unfold Publication.apply File.applyDocumentTransactionGroup at h
    obtain ⟨-,h⟩ := guard_eq_ok.mp h
    obtain ⟨tx,root,hbuilt,hup⟩ := updateAdvance_ok h
    have hmembers : ∃ done, Commits f (tx,root).1 (tx,root).2 done :=
      foldlM_invariant (I := fun acc : WriteTxn × DatabaseRoot => ∃ done, Commits f acc.1 acc.2 done)
        (fun acc t _ acc' hacc hs => by
          obtain ⟨done,hdone⟩ := hacc
          obtain ⟨batch,hnext⟩ := groupStep_commits hdone hs
          exact ⟨_,hnext⟩)
        ⟨[],.start rfl rfl rfl rfl rfl rfl rfl rfl⟩ hbuilt
    obtain ⟨done,hdone⟩ := hmembers
    exact ⟨ts.length,tx,root,done,hup,hdone⟩
  | createCollection transactionID committedAt name =>
    obtain ⟨tx,root,batch,hup,ha,hnew,hcatalog,hchanges,hcount⟩ := applyCreateCollection_ok h
    exact ⟨1,tx,root,_,hup,hone.append ha (.collection hnew hcatalog hchanges hcount)⟩
  | createIndex t =>
    obtain ⟨tx,root,fields,_,_,_,_,_,_,_,_,hup,-,hentries,hc⟩ := applyCreateIndex_ok h
    have hstart : Commits f { f.beginUpdate 1 with requiredFeatures := f.requiredFeatures.withCompound fields } f.root [] :=
      .start rfl rfl rfl rfl rfl rfl rfl rfl
    exact ⟨1,tx,root,_,hup,hstart.append hc.appends (.index rfl rfl hentries hc)⟩
  | systemRecord transactionID committedAt m =>
    obtain ⟨tx,root,batch,catalog,hup,ha,hsystem,hcatalog,hchanges,hcount⟩ := applySystemRecordTransaction_ok h
    have hcollections := (applySystemRecordMutation_applied (systemStep_ok hsystem)).1
    exact ⟨1,tx,root,_,hup,hone.append ha (.quiet (by rw [hcatalog]; exact hcollections) hchanges hcount)⟩
  | replicationNoop transactionID committedAt =>
    obtain ⟨tx,root,batch,hup,ha,hcatalog,hchanges,hcount⟩ := applyReplicationNoop_ok h
    exact ⟨1,tx,root,_,hup,hone.append ha (.quiet (by rw [hcatalog]) hchanges hcount)⟩
  | retainCommitsFrom keepFrom transactionID committedAt =>
    obtain ⟨tx,root,_,_,_,_,_,_,hup,hr⟩ := retainCommitsFrom_ok h
    exact ⟨1,tx,root,_,hup,.retain hr⟩
  | beginIndexBuild t =>
    obtain ⟨tx0,tx,root,_,_,_,hup,-,-,htx,hput⟩ := beginIndexBuild_ok h
    exact ⟨0,tx,root,[],hup,hput.commits (by rw [htx]; rfl) (by rw [htx]; rfl) (by rw [htx]; rfl)⟩
  | scanBatch batch =>
    obtain ⟨tx,root,_,_,_,_,hup,-,hput⟩ := applyIndexBuildScanBatch_ok h
    exact ⟨0,tx,root,[],hup,hput.commits rfl rfl rfl⟩
  | catchUpBatch batch =>
    obtain ⟨tx0,tx,root,_,_,_,_,hup,-,htx,hput⟩ := applyIndexBuildCatchUpBatch_ok h
    exact ⟨0,tx,root,[],hup,hput.commits (by rw [htx]; rfl) (by rw [htx]; rfl) (by rw [htx]; rfl)⟩
  | finalizeIndexBuild t =>
    obtain ⟨tx,root,_,_,_,_,_,hup,hf⟩ := finalizeIndexBuild_ok h
    have hstart : Commits f { f.beginUpdate 1 with indexBuildCatalogChanged := true } f.root [] :=
      .start rfl rfl rfl rfl rfl rfl rfl rfl
    exact ⟨1,tx,root,_,hup,hstart.append hf.appends (.build rfl rfl hf)⟩
  | failIndexBuild buildID failure updatedAt =>
    obtain ⟨tx,root,_,_,hup,-,hput⟩ := failIndexBuild_ok h
    exact ⟨0,tx,root,[],hup,hput.commits rfl rfl rfl⟩
  | abortIndexBuild buildID => exact ⟨0,_,_,[],abortIndexBuild_ok h,.start rfl rfl rfl rfl rfl rfl rfl rfl⟩
  | replaceCheckpoints cs =>
    obtain ⟨_,_,-,hstore,hup⟩ := replaceDurableConsumerCheckpoints_ok h
    exact ⟨0,_,_,[],hup,.start rfl rfl rfl rfl rfl rfl (storeDirectory_collections hstore) rfl⟩
  | initialConsumer name transactionID =>
    obtain ⟨tx,root,batch,_,_,-,hup,ha,-,hstore,hcatalog,hchanges,hcount⟩ := createInitialDurableConsumer_ok h
    exact ⟨1,tx,root,_,hup,hone.append ha
      (.quiet (by rw [hcatalog]; exact storeDirectory_collections hstore) hchanges hcount)⟩

/-! ### Files -/

structure FileLogged [Sha256] (f : File) (log : ℕ → CommitBatch) : Prop where
  sequence_le : f.root.commitSequence ≤ maxUint64
  oldest_le : f.root.oldestRetainedSequence ≤ f.root.commitSequence
  empty : f.root.commitSequence = 0 → f.root.catalogRoot = none
  logged : Logged f.readers f.root f.retainedCommitBytes log
  written : Written f.root log

structure Extends (f : File) (log : ℕ → CommitBatch) (f' : File) (log' : ℕ → CommitBatch) : Prop where
  readers : f'.readers = f.readers
  nextPin : f'.nextPin = f.nextPin
  sequence_mono : f.root.commitSequence ≤ f'.root.commitSequence
  agree : ∀ q ≤ f.root.commitSequence, log' q = log q

theorem Committed.published [Sha256] (h : Committed f log tx root done log')
    (hup : Updated f advance tx root f') : FileLogged f' log' ∧ Extends f log f' log' := by
  obtain ⟨rfl,hseq,hpos,hle,hold⟩ := hup
  have hroot : (f.publish tx (tx.finalRoot root)).root = tx.finalRoot root := rfl
  have hbytes : (f.publish tx (tx.finalRoot root)).retainedCommitBytes = tx.retainedCommitBytes := by
    unfold File.publish
    dsimp only
    split_ifs with heval
    · rfl
    · exact (h.evaluated.resolve_left heval).symm
  refine ⟨⟨?_,?_,?_,?_,h.written.of_root ?_ ?_⟩,⟨rfl,rfl,?_,h.agree⟩⟩
  · rw [hroot,WriteTxn.finalRoot_commitSequence]
    omega
  · rw [hroot,WriteTxn.finalRoot_commitSequence,WriteTxn.finalRoot_oldestRetainedSequence]
    omega
  · rw [hroot,WriteTxn.finalRoot_commitSequence]
    omega
  · rw [hroot,hbytes]
    exact ⟨by simpa using h.logged.zero,by simpa using h.logged.holds,by simpa using h.logged.bytes_eq,
      h.logged.bytes_le,by simpa using h.logged.encoded,by simpa [File.publish] using h.logged.pins⟩
  · rw [hroot,WriteTxn.finalRoot_commitSequence]
  · rw [hroot,WriteTxn.finalRoot_catalogRoot]
  · rw [hroot,WriteTxn.finalRoot_commitSequence]
    omega

theorem Publication.logged [Sha256] {p : Publication} (hf : FileLogged f log)
    (h : p.apply f = .ok f') : ∃ log', FileLogged f' log' ∧ Extends f log f' log' := by
  obtain ⟨advance,tx,root,done,hup,hcommits⟩ := Publication.commits h
  obtain ⟨log',hcommitted⟩ := hcommits.committed hf.logged hf.written
  exact ⟨log',hcommitted.published hup⟩

theorem FileLogged.create [Sha256] (maxCommits maxBytes : ℕ) (log : ℕ → CommitBatch) :
    FileLogged (File.create maxCommits maxBytes) log := by
  refine ⟨zero_le _,le_rfl,fun _ => rfl,⟨fun _ => rfl,logHolds_empty log,rfl,zero_le _,?_,?_⟩,rfl,?_⟩
  · intro q hpos _ hle
    have hzero : q ≤ 0 := hle
    omega
  · intro id pin hfind
    exact absurd hfind (by simp [File.create])
  · intro q hq
    exact absurd hq (not_lt_zero q)

theorem FileLogged.reopen [Sha256] (h : FileLogged f log) (hr : f.reopen maxCommits maxBytes = .ok f') :
    FileLogged f' log ∧ f'.readers = ∅ ∧ f'.root = f.root ∧ f'.retainedCommitBytes = f.retainedCommitBytes := by
  unfold File.reopen at hr
  have hbytes := h.logged.bytes_eq
  have hle := h.logged.bytes_le
  rw [calculateRetainedCommitBytes_eq (by omega),ok_bind,hbytes] at hr
  cases hr
  refine ⟨⟨h.sequence_le,h.oldest_le,h.empty,⟨h.logged.zero,h.logged.holds,hbytes,hle,h.logged.encoded,?_⟩,h.written⟩,
    rfl,rfl,rfl⟩
  intro id pin hfind
  exact absurd hfind (by simp [File.create])

theorem FileLogged.setReader [Sha256] (h : FileLogged f log) (id next : ℕ) (pin : ReaderPin)
    (hpin : pin.replay = true → pin.sequence ≤ f.root.commitSequence ∧ f.root.oldestRetainedSequence ≤ pin.sequence+1) :
    FileLogged { f with nextPin := next, readers := f.readers.insert id pin } log := by
  refine ⟨h.sequence_le,h.oldest_le,h.empty,
    ⟨h.logged.zero,h.logged.holds,h.logged.bytes_eq,h.logged.bytes_le,h.logged.encoded,?_⟩,h.written⟩
  intro id' pin' hfind hreplay
  rw [find_insert] at hfind
  split_ifs at hfind
  · cases hfind
    exact hpin hreplay
  · exact h.logged.pins id' pin' hfind hreplay

theorem FileLogged.dropReader [Sha256] (h : FileLogged f log) (id : ℕ) : FileLogged (f.dropReaderPin id) log := by
  refine ⟨h.sequence_le,h.oldest_le,h.empty,
    ⟨h.logged.zero,h.logged.holds,h.logged.bytes_eq,h.logged.bytes_le,h.logged.encoded,?_⟩,h.written⟩
  intro id' pin hfind hreplay
  unfold File.dropReaderPin at hfind
  rw [find_erase] at hfind
  split_ifs at hfind
  exact h.logged.pins id' pin hfind hreplay

end Meldbase.Logical
