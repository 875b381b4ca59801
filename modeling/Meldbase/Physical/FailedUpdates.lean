import Meldbase.Physical.UpdateOutcome

/-! # Failed updates leave no trace

In every state of a run the free pages are data pages of the file, and what is
cached agrees with the disk.  An update that fails before its Meta record is written
therefore changes nothing that a reader of the file can see.  After a failed I/O
call nothing is written any more.
-/
namespace Meldbase.Physical
open List SortedMap Prod
open Storage (TreeKind)
open Logical (maxUint64)
open Outcome

/-! ### Meta records that encode -/

def Supported (features : Features) : Prop := features &&& ~~~supportedRequiredFeatures = 0

theorem Supported.or (ha : Supported a) (hb : Supported b) : Supported (a ||| b) := by
  unfold Supported at *
  rw [BitVec.and_or_distrib_right,ha,hb,BitVec.or_self]

section Prepare
variable {tx tx' : WriteTxn} {root root' : DatabaseRoot} {p : Prepared}

theorem run_supported {α : Type} {pages : ℕ → Option DataPage} {build : Build α} {a : α}
    (hs : Supported tx.requiredFeatures) (h : build.run pages tx cache = (.ok (a,tx'),cache')) :
    Supported tx'.requiredFeatures := by
  induction build generalizing tx cache with
  | done b =>
    cases h
    exact hs
  | fail e => cases h
  | read pageID next ih => exact ih _ hs h
  | appendNode kind node next ih =>
    unfold Build.run at h
    cases hwrite : pageCodec.writeNode kind tx.toWriteTxn node with
    | error e =>
      rw [hwrite] at h
      cases h
    | ok found =>
      rw [hwrite] at h
      exact ih _ (by exact hs) h
  | storeValue kind value sum next ih =>
    unfold Build.run at h
    cases hstore : Physical.storeValue kind value sum tx.toWriteTxn with
    | error e =>
      rw [hstore] at h
      cases h
    | ok found =>
      rw [hstore] at h
      exact ih _ (by exact hs) h
  | require feature next ih =>
    unfold Build.run at h
    cases hrequire : tx.requireFeature feature with
    | error e =>
      rw [hrequire] at h
      cases h
    | ok tx1 =>
      rw [hrequire] at h
      obtain ⟨hfeature,hset⟩ := guard_eq_ok.mp (show (if _ then _ else _) = _ from hrequire)
      cases hset
      exact ih (hs.or (not_not.mp (not_or.mp hfeature).2)) h
  | retain bytes next ih =>
    unfold Build.run at h
    exact ih (by exact hs) h
  | changeBuilds next ih =>
    unfold Build.run at h
    exact ih (by exact hs) h

theorem finalizeFreeSpace_root (h : tx.finalizeFreeSpace root = .ok (tx',root')) :
    root' = { root with freeSpaceRoot := root'.freeSpaceRoot } ∧ tx'.requiredFeatures = tx.requiredFeatures := by
  unfold WriteTxn.finalizeFreeSpace at h
  split_ifs at h
  · cases h
    exact ⟨rfl,rfl⟩
  · cases h
    exact ⟨rfl,rfl⟩
  · cases h
    exact ⟨rfl,rfl⟩
  obtain ⟨tree,-,h⟩ := bind_eq_ok.mp h
  obtain ⟨filled,-,h⟩ := bind_eq_ok.mp h
  obtain ⟨flushed,-,h⟩ := bind_eq_ok.mp h
  cases h
  exact ⟨rfl,rfl⟩

/-- A prepared root is the callback's, with the transaction's sequence. -/
theorem prepare_root {next : ℕ} (hpool : Pool free next) (hd : Drawn free next tx.toWriteTxn)
    (h : tx.prepare root = .ok p) :
    p.tx.sequence = tx.sequence ∧ p.root.commitSequence = tx.sequence ∧ p.root.oldestRetainedSequence ≤ tx.sequence ∧
      p.root.catalogRoot = root.catalogRoot ∧ p.tx.requiredFeatures = tx.requiredFeatures ∧
      encodeDatabaseRoot p.rootPageID p.tx.generation p.root = .ok p.rootPage := by
  unfold WriteTxn.prepare at h
  obtain ⟨hcheck,h⟩ := guard_eq_ok.mp h
  obtain ⟨⟨rootPageID,allocated⟩,halloc,h⟩ := bind_eq_ok.mp h
  obtain ⟨⟨tx2,root2⟩,hfinal,h⟩ := bind_eq_ok.mp h
  obtain ⟨rootPage,hencode,h⟩ := bind_eq_ok.mp h
  cases h
  obtain ⟨hd1,hlater1,-⟩ := allocatePageID_drawn hpool hd halloc
  obtain ⟨-,hlater2,-⟩ := finalizeFreeSpace_drawn hpool
    (show Drawn free next ({ tx with toWriteTxn := allocated } : WriteTxn).toWriteTxn from hd1) hfinal
  obtain ⟨hroot,hfeatures⟩ := finalizeFreeSpace_root hfinal
  simp only [Bool.or_eq_true,decide_eq_true_eq,not_or,not_not,not_lt] at hcheck
  rw [hroot]
  refine ⟨hlater2.sequence.trans hlater1.sequence,?_,?_,?_,hfeatures,?_⟩
  · exact hcheck.1.1
  · exact hcheck.1.2
  · dsimp only
    split_ifs <;> rfl
  · rw [← hroot]
    exact hencode

end Prepare

/-! ### Free pages -/

variable {pages : ℕ → Option DataPage}

theorem scan_pool {a : Audit} {checks : TreeKind → Bytes × Value → Bool}
    (h : a.scan pages checks = .ok free) : free.Pairwise (· < ·) ∧ ∀ p ∈ free, 2 ≤ p ∧ p < a.nextPage := by
  unfold Audit.scan at h
  obtain ⟨w,-,h⟩ := bind_eq_ok.mp h
  obtain ⟨-,h⟩ := guard_eq_ok.mp h
  cases h
  refine ⟨(pairwise_lt_range').filter _,?_⟩
  intro p hp
  have hrange := mem_range'_1.mp (mem_filter.mp hp).1
  omega

structure FreeScan.Ordered (physicalPages : ℕ) (scan : FreeScan) : Prop where
  ascending : scan.free.Pairwise (· < ·)
  inFile : ∀ p ∈ scan.free, 2 ≤ p ∧ p < scan.previousEnd
  le : scan.previousEnd ≤ physicalPages

theorem decodeFreeSpaceExtent_ok (h : decodeFreeSpaceExtent physicalPages entry = .ok (start,finish,generation)) :
    2 ≤ start ∧ start < finish ∧ finish ≤ physicalPages ∧ generation ≠ 0 := by
  obtain ⟨key,value⟩ := entry
  unfold decodeFreeSpaceExtent at h
  cases value with
  | extent last safePhysicalPages auditGeneration =>
    obtain ⟨-,h⟩ := guard_eq_ok.mp h
    obtain ⟨hcheck,h⟩ := guard_eq_ok.mp h
    cases h
    simp only [Bool.or_eq_true,decide_eq_true_eq,not_or,not_lt,not_le] at hcheck
    exact ⟨hcheck.1.1.1.1,hcheck.1.1.1.2,by omega,hcheck.2⟩
  | _ => cases h

theorem scanExtent_ordered
    (hs : scan.Ordered physicalPages) (h : scanExtent physicalPages rootGeneration scan entry = .ok scan') :
    scan'.Ordered physicalPages := by
  unfold scanExtent at h
  obtain ⟨⟨start,finish,generation⟩,hdecode,h⟩ := bind_eq_ok.mp h
  obtain ⟨hstart,hlt,hle,-⟩ := decodeFreeSpaceExtent_ok hdecode
  obtain ⟨hafter,h⟩ := guard_eq_ok.mp h
  obtain ⟨-,h⟩ := guard_eq_ok.mp h
  obtain ⟨-,h⟩ := guard_eq_ok.mp h
  cases h
  have hbefore : scan.previousEnd < start ∨ scan.previousEnd = 0 := by
    simp only [Bool.and_eq_true,decide_eq_true_eq,not_and,not_le] at hafter
    by_cases hzero : scan.previousEnd = 0
    · exact .inr hzero
    · exact .inl (hafter hzero)
  refine ⟨?_,?_,hle⟩
  · refine pairwise_append.mpr ⟨hs.ascending,pairwise_lt_range',?_⟩
    intro a ha b hb
    have ha := hs.inFile a ha
    have hb := mem_range'_1.mp hb
    omega
  intro q hq
  rcases mem_append.mp hq with hq | hq
  · have hq := hs.inFile q hq
    dsimp only
    omega
  have hq := mem_range'_1.mp hq
  dsimp only
  omega

theorem freeCandidates_ordered (h : freeCandidates pages root m = .ok scan) : scan.Ordered m.physicalPageCount := by
  unfold freeCandidates at h
  split at h
  · cases h
  obtain ⟨entries,-,h⟩ := bind_eq_ok.mp h
  obtain ⟨found,hfold,h⟩ := bind_eq_ok.mp h
  obtain ⟨-,h⟩ := guard_eq_ok.mp h
  cases h
  exact foldlM_invariant (I := FreeScan.Ordered m.physicalPageCount) (fun _ _ _ _ hs h => scanExtent_ordered hs h)
    ⟨List.Pairwise.nil,fun _ hp => absurd hp not_mem_nil,Nat.zero_le _⟩ hfold

theorem untouchedCandidates_sublist (pages : ℕ → Option DataPage) (auditGeneration : ℕ) (free : List ℕ) :
    (untouchedCandidates pages auditGeneration free).Sublist free := by
  unfold untouchedCandidates
  have h := (dropWhile_sublist (pageReusedAfterGeneration pages auditGeneration) (l := free.reverse)).reverse
  rwa [reverse_reverse] at h

theorem restoreFreeSpace_pool (h : restoreFreeSpace pages nextPage root m = .ok free) :
    free.Pairwise (· < ·) ∧ ∀ p ∈ free, 2 ≤ p ∧ p < m.physicalPageCount := by
  unfold restoreFreeSpace at h
  split_ifs at h with hnone
  · cases h
    exact ⟨List.Pairwise.nil,fun _ hp => absurd hp not_mem_nil⟩
  obtain ⟨w,-,h⟩ := bind_eq_ok.mp h
  obtain ⟨scan,hscan,h⟩ := bind_eq_ok.mp h
  obtain ⟨-,h⟩ := guard_eq_ok.mp h
  obtain ⟨-,h⟩ := guard_eq_ok.mp h
  cases h
  have hordered := freeCandidates_ordered hscan
  have hsub : (if scan.auditGeneration < m.generation then untouchedCandidates pages scan.auditGeneration scan.free
      else scan.free).Sublist scan.free := by
    split_ifs
    · exact untouchedCandidates_sublist _ _ _
    · exact List.Sublist.refl _
  refine ⟨hordered.ascending.sublist hsub,fun p hp => ?_⟩
  have hp := hordered.inFile p (hsub.subset hp)
  have hle := hordered.le
  omega

/-! ### Opening -/

theorem slotMeta_ok (h : slotMeta disk slot = some m) :
    disk.slots slot = some m ∧ encodeMeta m = .ok m ∧ m.physicalPageCount ≤ disk.length := by
  unfold slotMeta at h
  cases hslot : disk.slots slot with
  | none =>
    rw [hslot] at h
    cases h
  | some stored =>
    rw [hslot] at h
    unfold decodeMeta at h
    dsimp only at h
    cases hdecode : encodeMeta stored with
    | error e =>
      rw [hdecode] at h
      cases h
    | ok decoded =>
      rw [hdecode] at h
      obtain ⟨rfl,-,-⟩ := encodeMeta_ok hdecode
      dsimp only at h
      split_ifs at h with hle
      cases h
      exact ⟨rfl,hdecode,hle⟩

theorem inspectExistingFile_ok (h : inspectExistingFile disk = .ok state) :
    2 ≤ disk.length ∧ slotMeta disk state.metaSlot = some state.selected ∧ validateRoot disk state.selected = true ∧
      (slotOrder (slotMeta disk)).find? (slotUsable disk (slotMeta disk)) = some state.metaSlot ∧
      readDatabaseRoot disk state.selected = .ok state.root ∧ state.metas = slotMeta disk ∧
      state.metaOK = slotUsable disk (slotMeta disk) ∧ state.nextPage = disk.length := by
  unfold inspectExistingFile at h
  dsimp only at h
  obtain ⟨hlength,h⟩ := guard_eq_ok.mp h
  obtain ⟨-,h⟩ := guard_eq_ok.mp h
  obtain ⟨-,h⟩ := guard_eq_ok.mp h
  cases hfind : (slotOrder (slotMeta disk)).find? (slotUsable disk (slotMeta disk)) with
  | none =>
    rw [hfind] at h
    cases h
  | some slot =>
    rw [hfind] at h
    dsimp only at h
    cases hslot : slotMeta disk slot with
    | none =>
      rw [hslot] at h
      cases h
    | some m =>
      rw [hslot] at h
      obtain ⟨root,hroot,h⟩ := bind_eq_ok.mp h
      cases h
      have husable := List.find?_some hfind
      unfold slotUsable at husable
      rw [hslot] at husable
      exact ⟨not_lt.mp hlength,hslot,husable,rfl,hroot,rfl,rfl,rfl⟩

structure OpenedFrom (disk : Disk) (state : ExistingFile) (f : File) : Prop where
  device : f.device = ⟨disk,[]⟩
  opened : f.opened = true
  current : f.current = state.selected
  root : f.root = state.root
  metaSlot : f.metaSlot = state.metaSlot
  metas : f.metas = state.metas
  metaOK : f.metaOK = state.metaOK
  nextPage : f.nextPage = state.nextPage
  fatalErr : f.fatalErr = none
  readers : f.readers = ∅
  cache : f.cache = PageCache.newPageCache defaultCachedPages
  free : (f.freePages,f.freeSpaceTracked) = openFreeSpace (inFile state.nextPage disk.pages) state
  rebuild : f.freeSpaceNeedsRebuild = false

theorem openFile_ok (h : openFile disk maxPhysicalPages = .ok f) :
    ∃ state, inspectExistingFile disk = .ok state ∧ OpenedFrom disk state f := by
  unfold openFile at h
  obtain ⟨state,hstate,h⟩ := bind_eq_ok.mp h
  obtain ⟨bytes,-,h⟩ := bind_eq_ok.mp h
  cases h
  exact ⟨state,hstate,rfl,rfl,rfl,rfl,rfl,rfl,rfl,rfl,rfl,rfl,rfl,rfl,rfl⟩

theorem openFreeSpace_pool (pages : ℕ → Option DataPage) (state : ExistingFile) :
    (openFreeSpace pages state).1.Pairwise (· < ·) ∧
      ∀ p ∈ (openFreeSpace pages state).1, 2 ≤ p ∧ p < state.selected.physicalPageCount := by
  have hnil : ([] : List ℕ).Pairwise (· < ·) ∧ ∀ p ∈ ([] : List ℕ), 2 ≤ p ∧ p < state.selected.physicalPageCount :=
    ⟨List.Pairwise.nil,fun _ hp => absurd hp not_mem_nil⟩
  unfold openFreeSpace
  split_ifs
  · exact hnil
  split
  · next free hrestore => exact restoreFreeSpace_pool hrestore
  · exact hnil

/-! ### The invariant -/

/-- Free pages are data pages of the file, cached pages are as stored, and the
current Meta record encodes. -/
structure File.Coherent (f : File) : Prop where
  pool : Pool f.freePages f.nextPage
  cached_lt : ∀ q page, f.cache.get q = some page → q < f.nextPage
  cached : ∀ q, f.fatalErr = none ∨ q ∉ f.freePages → CachedAsStored f.pages f.cache q
  valid : f.opened = true → encodeMeta f.current = .ok f.current
  pinned : f.current.commitSequence = 0 → ∀ r ∈ pinnedRoots f.readers, r = 0

structure Session.Coherent (s : Session) : Prop where
  file : s.file.Coherent
  scanned : ∀ e ∈ s.scanned, e.2.Pairwise (· < ·) ∧ ∀ p ∈ e.2, 2 ≤ p ∧ p < e.1.nextPage

/-- The callers of maintenance updates refuse the empty database, or give it a catalog. -/
def Operation.Issued (s : Session) : Operation → Prop
  | .update advance build _ => s.file.current.commitSequence+advance = 0 →
    ∀ root tx cache, build.run s.file.pages (s.file.beginUpdate advance) s.file.cache = (.ok (root,tx),cache) →
      root.catalogRoot ≠ 0
  | _ => True

section Update
variable {f : File} {advance : ℕ} {build : Build DatabaseRoot} {cache : PageCache} {p : Prepared}

theorem File.Coherent.warmed_lt (hf : f.Coherent) (h : Warmed f.nextPage f.pages f.cache cache)
    (q : ℕ) (page : DataPage) (hget : cache.get q = some page) : q < f.nextPage := by
  rcases h q page hget with hget | ⟨hlt,-⟩
  · exact hf.cached_lt q page hget
  · exact hlt

theorem File.Coherent.withCache (hf : f.Coherent) (h : Warmed f.nextPage f.pages f.cache cache) :
    File.Coherent { f with cache := cache } :=
  ⟨hf.pool,hf.warmed_lt h,fun q hq => h.cached (hf.cached q hq),hf.valid,hf.pinned⟩

theorem Staged.root (h : Staged f advance build cache p) (hpool : Pool f.freePages f.nextPage) :
    p.tx.sequence = f.current.commitSequence+advance ∧ p.root.commitSequence = f.current.commitSequence+advance ∧
      p.root.oldestRetainedSequence ≤ f.current.commitSequence+advance ∧
      encodeDatabaseRoot p.rootPageID p.tx.generation p.root = .ok p.rootPage := by
  obtain ⟨root,tx,hrun,hprepare⟩ := h.prepared
  obtain ⟨hd,hlater,-⟩ := run_drawn hpool (beginUpdate_drawn f advance) hrun
  obtain ⟨hseq,hcommit,hold,-,-,hencode⟩ := prepare_root hpool hd hprepare
  have htx : tx.sequence = f.current.commitSequence+advance := hlater.sequence
  rw [htx] at hseq hcommit hold
  exact ⟨hseq,hcommit,hold,hencode⟩

section
variable (h : Staged f advance build cache p)
include h

theorem Staged.supported (hpool : Pool f.freePages f.nextPage)
    (hf : Supported f.current.requiredFeatures) : Supported p.tx.requiredFeatures := by
  obtain ⟨root,tx,hrun,hprepare⟩ := h.prepared
  obtain ⟨hd,-,-⟩ := run_drawn hpool (beginUpdate_drawn f advance) hrun
  obtain ⟨-,-,-,-,hreq,-⟩ := prepare_root hpool hd hprepare
  rw [hreq]
  exact run_supported (by exact hf) hrun

/-- Past the empty database the Meta record of a prepared version encodes. -/
theorem Staged.encodes (hf : f.Coherent) (hpositive : 0 < f.current.commitSequence+advance) :
    encodeMeta (p.meta f.current) = .ok (p.meta f.current) := by
  obtain ⟨hseq,-,hold,-⟩ := h.root hf.pool
  obtain ⟨-,hvalid,hsupported⟩ := encodeMeta_ok (hf.valid h.opened)
  have hfeatures := h.supported hf.pool hsupported
  have hfresh := h.fresh hf.pool
  have hid : f.current.databaseID.isZero = false := by
    unfold validMeta at hvalid
    split_ifs at hvalid with hcheck <;> simp_all
  have hrootPage : p.rootPageID < p.tx.nextPage := by
    rcases hfresh.owned (p.rootPageID,p.rootPage) (mem_append_right _ mem_cons_self) with hreused | hnew
    · have hin := hf.pool.inFile p.rootPageID
        (by rw [hfresh.drawn.free_eq]; exact mem_append_right _ (mem_reverse.mpr hreused))
      have hle := hfresh.drawn.next_le
      omega
    · exact hnew.2
  have htwo := hfresh.two_le
  unfold encodeMeta
  rw [if_neg (by exact not_not.mpr hfeatures),if_neg]
  unfold validMeta Prepared.meta
  rw [if_neg,if_neg (by dsimp only; omega)]
  · simp only [Bool.not_eq_true',Bool.and_eq_false_iff,decide_eq_false_iff_not,not_or,not_not,not_le]
    omega
  · simp only [hid,hfresh.generation,Bool.false_or,Bool.or_eq_true,decide_eq_true_eq,not_or,not_lt]
    omega

theorem Staged.positive (hpool : Pool f.freePages f.nextPage)
    (hissued : f.current.commitSequence+advance = 0 →
      ∀ root tx cache, build.run f.pages (f.beginUpdate advance) f.cache = (.ok (root,tx),cache) → root.catalogRoot ≠ 0) :
    0 < f.current.commitSequence+advance := by
  rw [Nat.pos_iff_ne_zero]
  intro hzero
  obtain ⟨root,tx,hrun,hprepare⟩ := h.prepared
  have hcatalog := hissued hzero root tx cache hrun
  obtain ⟨hd,hlater,-⟩ := run_drawn hpool (beginUpdate_drawn f advance) hrun
  obtain ⟨-,hcommit,-,hsame,-,hencode⟩ := prepare_root hpool hd hprepare
  have hsequence : p.root.commitSequence = 0 := (hcommit.trans hlater.sequence).trans hzero
  unfold encodeDatabaseRoot at hencode
  obtain ⟨hroots,-⟩ := guard_eq_ok.mp hencode
  rw [← hsame] at hcatalog
  simp [hsequence,hcatalog] at hroots

end

/-- A published version keeps the invariant. -/
theorem File.Coherent.publish {device device' : Device} {faults : ℕ → Option IOFailure} (hf : f.Coherent)
    (hstaged : Staged f advance build cache p) (hdata : f.device.perform faults 0 p.dataCalls = (device,none))
    (hmeta : encodeMeta (p.meta f.current) = .ok m)
    (hslot : device.perform faults p.dataCalls.length (metaCalls (otherSlot f.metaSlot) m) = (device',none)) :
    (File.publish { f with cache := cache, device := device' } p m).Coherent := by
  have hfresh := hstaged.fresh hf.pool
  have hwarmed := hstaged.warmed hf.pool
  obtain ⟨hm,-,-⟩ := encodeMeta_ok hmeta
  have hsub : p.tx.freePages.Sublist f.freePages := by
    rw [hfresh.drawn.free_eq]
    exact sublist_append_left _ _
  have hnext := hfresh.drawn.next_le
  have hlt := hf.warmed_lt hwarmed
  refine ⟨⟨hf.pool.ascending.sublist hsub,fun q hq => ?_,hf.pool.two_le.trans hnext⟩,?_,?_,?_,?_⟩
  · have hin := hf.pool.inFile q (hsub.subset hq)
    dsimp only [File.publish]
    omega
  · intro q page hget
    exact (hlt q page (PageCache.get_invalidate hget).2).trans_le hnext
  · -- what is still cached was not reused, so it was not written
    intro q _ page hget
    obtain ⟨hreused,hget⟩ := PageCache.get_invalidate hget
    have hq := hlt q page hget
    have hspared : q ∉ p.writes.map fst := by
      intro hmem
      obtain ⟨w,hw,rfl⟩ := mem_map.mp hmem
      rcases hfresh.owned w hw with hown | ⟨hle,-⟩
      · exact hreused hown
      · omega
    have hstored : f.pages q = some page := hwarmed.cached (hf.cached q (.inl hstaged.fatalErr)) page hget
    exact (perform_meta_pages hslot q).trans ((perform_data_pages hdata hspared).trans hstored)
  · intro _
    rw [hm] at hmeta ⊢
    exact hmeta
  intro hzero
  have hcurrent : m.commitSequence = f.current.commitSequence+advance := by
    rw [hm]
    exact (hstaged.root hf.pool).1
  have hzero : m.commitSequence = 0 := hzero
  exact hf.pinned (by omega)

/-- An update keeps the invariant, however it ends. -/
theorem File.Coherent.update (hf : f.Coherent) (faults : ℕ → Option IOFailure)
    (hissued : f.current.commitSequence+advance = 0 →
      ∀ root tx cache, build.run f.pages (f.beginUpdate advance) f.cache = (.ok (root,tx),cache) → root.catalogRoot ≠ 0) :
    (f.updateAdvance advance build faults).1.Coherent := by
  -- a failing call spares every page that is not free
  have hfailed : ∀ {device' : Device} {cache : PageCache} {p : Prepared} (e : UpdateError),
      Staged f advance build cache p → (∀ q, q ∉ p.writes.map fst → device'.view.pages q = f.pages q) →
      File.Coherent { f with cache := cache, device := device', fatalErr := some e } := by
    intro device' cache p e hstaged hpages
    have hwarmed := hstaged.warmed hf.pool
    have hlt := hf.warmed_lt hwarmed
    refine ⟨hf.pool,hlt,?_,hf.valid,hf.pinned⟩
    intro q hq page hget
    have hq : q ∉ f.freePages := hq.resolve_left (by simp)
    have hstored : f.pages q = some page := hwarmed.cached (hf.cached q (.inr hq)) page hget
    exact (hpages q ((hstaged.fresh hf.pool).spares hq (hlt q page hget))).trans hstored
  have houtcome := updateAdvance_cases f advance build faults
  generalize f.updateAdvance advance build faults = result at houtcome
  obtain ⟨f',outcome⟩ := result
  dsimp only at houtcome ⊢
  cases houtcome with
  | closed _ => exact hf
  | fatal e _ => exact hf
  | exhausted => exact hf
  | unprepared e _ =>
    exact hf.withCache (run_warmed build f.pages hf.pool (beginUpdate_drawn f advance) rfl f.cache)
  | unencoded hstaged _ hmeta =>
    rw [hstaged.encodes hf (hstaged.positive hf.pool hissued)] at hmeta
    cases hmeta
  | dataFailed hstaged hdata => exact hfailed _ hstaged (fun q hq => perform_data_pages hdata hq)
  | metaFailed hstaged hdata hmeta hslot =>
    exact hfailed _ hstaged (fun q hq => (perform_meta_pages hslot q).trans (perform_data_pages hdata hq))
  | published hstaged hdata hmeta hslot => exact hf.publish hstaged hdata hmeta hslot

end Update

/-! ### Runs -/

variable {readers : SortedMap ℕ ReaderPin}

theorem mem_pinnedRoots :
    r ∈ pinnedRoots readers ↔ ∃ id pin, readers.find id = some pin ∧ pin.rootPage = r := by
  unfold pinnedRoots
  constructor
  · intro hr
    obtain ⟨⟨id,pin⟩,he,rfl⟩ := mem_map.mp hr
    exact ⟨id,pin,mem_entries.mp he,rfl⟩
  · rintro ⟨id,pin,hfind,rfl⟩
    exact mem_map.mpr ⟨(id,pin),mem_entries.mpr hfind,rfl⟩

theorem pinnedRoots_insert (h : r ∈ pinnedRoots (readers.insert pinID pin)) : r = pin.rootPage ∨ r ∈ pinnedRoots readers := by
  obtain ⟨id,found,hfind,rfl⟩ := mem_pinnedRoots.mp h
  rw [find_insert] at hfind
  split_ifs at hfind
  · cases hfind
    exact .inl rfl
  · exact .inr (mem_pinnedRoots.mpr ⟨id,found,hfind,rfl⟩)

theorem pinnedRoots_erase (h : r ∈ pinnedRoots (readers.erase pinID)) :
    r ∈ pinnedRoots readers := by
  obtain ⟨id,found,hfind,rfl⟩ := mem_pinnedRoots.mp h
  rw [find_erase] at hfind
  split_ifs at hfind
  exact mem_pinnedRoots.mpr ⟨id,found,hfind,rfl⟩

theorem validMeta_rootPage (h : validMeta m = true) (hzero : m.commitSequence = 0) : m.rootPage = 0 := by
  unfold validMeta at h
  split_ifs at h with hcheck hroot
  · exact hroot
  · simp only [hzero,Bool.and_eq_true,decide_eq_true_eq] at h
    omega

section Run
variable {f : File}

section
variable (hf : f.Coherent)
include hf

theorem File.Coherent.rootPage (hopened : f.opened = true) (hzero : f.current.commitSequence = 0) :
    f.current.rootPage = 0 :=
  validMeta_rootPage (encodeMeta_ok (hf.valid hopened)).2.1 hzero

theorem File.Coherent.withReaders {nextPin : ℕ}
    (hreaders : f.current.commitSequence = 0 → ∀ r ∈ pinnedRoots readers, r = 0) :
    File.Coherent { f with nextPin := nextPin, readers := readers } :=
  ⟨hf.pool,hf.cached_lt,hf.cached,hf.valid,hreaders⟩

theorem File.Coherent.pin {nextPin pinID : ℕ} {pin : ReaderPin}
    (hpin : f.current.commitSequence = 0 → pin.rootPage = 0) :
    File.Coherent { f with nextPin := nextPin, readers := f.readers.insert pinID pin } := by
  refine hf.withReaders (fun hzero r hr => ?_)
  rcases pinnedRoots_insert hr with rfl | hr
  · exact hpin hzero
  · exact hf.pinned hzero r hr

theorem File.Coherent.withPool (version : ℕ) (tracked rebuild : Bool)
    (hfatal : f.fatalErr = none) (hfree : free.Pairwise (· < ·) ∧ ∀ p ∈ free, 2 ≤ p ∧ p < f.nextPage) :
    File.Coherent { f with
      freePages := free
      freePoolVersion := version
      freeSpaceTracked := tracked
      freeSpaceNeedsRebuild := rebuild } :=
  ⟨⟨hfree.1,hfree.2,hf.pool.two_le⟩,hf.cached_lt,fun q _ => hf.cached q (.inl hfatal),hf.valid,hf.pinned⟩

theorem File.Coherent.reclaim (checks : TreeKind → Bytes × Value → Bool) :
    (f.reclaimPages checks).1.Coherent := by
  unfold File.reclaimPages
  cases hfatal : f.fatalErr with
  | some e => exact hf
  | none =>
    dsimp only
    split_ifs
    · exact hf
    cases hscan : f.audit.scan f.pages checks with
    | error e => exact hf
    | ok free =>
      have hpool := hf.withPool (f.freePoolVersion+1)
        ((f.current.commitSequence ≠ 0 || free ≠ []) || f.freeSpaceTracked)
        ((f.current.commitSequence ≠ 0 || free ≠ []) || f.freeSpaceNeedsRebuild) hfatal (scan_pool hscan)
      rw [hfatal] at hpool
      exact hpool

end

theorem stillAt_iff (h : f.stillAt token = true) :
    f.opened = true ∧ f.fatalErr = none ∧ f.current.generation = token.generation ∧ f.nextPage = token.nextPage ∧
      f.metaSlot = token.metaSlot ∧ f.metas = token.metas ∧ f.metaOK = token.metaOK ∧
      f.freePoolVersion = token.freePoolVersion := by
  simpa [File.stillAt,and_assoc] using h

theorem File.Coherent.install (hf : f.Coherent) (persist : Bool)
    (hfree : free.Pairwise (· < ·) ∧ ∀ p ∈ free, 2 ≤ p ∧ p < token.nextPage) :
    (f.installReclamationAudit token free persist).1.Coherent := by
  unfold File.installReclamationAudit
  split_ifs with hstill
  · exact hf
  · obtain ⟨-,hfatal,-,hnext,-⟩ := stillAt_iff (by simpa using hstill)
    exact hf.withPool _ _ _ hfatal (by rw [hnext]; exact hfree)

/-- A file with nothing in memory but its Meta records. -/
theorem coherent_of_empty (hfree : f.freePages = []) (hcache : ∀ q, f.cache.get q = none) (hreaders : f.readers = ∅)
    (hnext : 2 ≤ f.nextPage) (hvalid : f.opened = true → encodeMeta f.current = .ok f.current) : f.Coherent := by
  refine ⟨?_,fun q page hget => ?_,fun q _ page hget => ?_,hvalid,?_⟩
  · rw [hfree]
    exact ⟨List.Pairwise.nil,fun _ hp => absurd hp not_mem_nil,hnext⟩
  · cases (hcache q).symm.trans hget
  · cases (hcache q).symm.trans hget
  · rw [hreaders]
    exact fun _ r hr => absurd hr not_mem_nil

theorem createFile_coherent (databaseID : {id : Logical.Identifier // id.isZero = false}) (maxPhysicalPages : ℕ) :
    (createFile databaseID maxPhysicalPages).Coherent := by
  refine coherent_of_empty rfl (fun _ => rfl) rfl le_rfl (fun _ => ?_)
  simp [createFile,encodeMeta,validMeta,databaseID.property]

theorem unopened_coherent (disk : Disk) : (File.unopened disk).Coherent :=
  coherent_of_empty rfl (fun _ => rfl) rfl le_rfl (fun hopened => nomatch hopened)

theorem openFile_coherent (h : openFile disk maxPhysicalPages = .ok f) : f.Coherent := by
  obtain ⟨state,hstate,hopen⟩ := openFile_ok h
  obtain ⟨hlength,hslot,-,-,-,-,-,hnext⟩ := inspectExistingFile_ok hstate
  obtain ⟨-,hencode,hcount⟩ := slotMeta_ok hslot
  have hfree : f.freePages = (openFreeSpace (inFile state.nextPage disk.pages) state).1 := congrArg fst hopen.free
  obtain ⟨hascending,hrange⟩ := openFreeSpace_pool (inFile state.nextPage disk.pages) state
  have hcache : ∀ q page, f.cache.get q ≠ some page := by
    intro q page hget
    rw [hopen.cache,PageCache.get_newPageCache] at hget
    cases hget
  refine ⟨⟨hfree ▸ hascending,?_,?_⟩,fun q page hget => absurd hget (hcache q page),
    fun q _ page hget => absurd hget (hcache q page),fun _ => by rw [hopen.current,hencode],?_⟩
  · intro p hp
    have hp := hrange p (hfree ▸ hp)
    rw [hopen.nextPage,hnext]
    omega
  · rw [hopen.nextPage,hnext]
    exact hlength
  · rw [hopen.readers]
    exact fun _ r hr => absurd hr not_mem_nil

theorem reopen_coherent (disk : Disk) (maxPhysicalPages : ℕ) : (Session.reopen disk maxPhysicalPages).1.Coherent := by
  unfold Session.reopen
  cases hopen : openFile disk maxPhysicalPages with
  | ok f => exact ⟨openFile_coherent hopen,fun _ he => absurd he not_mem_nil⟩
  | error e => exact ⟨unopened_coherent disk,fun _ he => absurd he not_mem_nil⟩

theorem Session.Coherent.withFile {s : Session} (hs : s.Coherent)
    (hresult : ∀ f', result = .ok f' → f'.Coherent) : (s.withFile result).1.Coherent := by
  cases result with
  | ok f' => exact ⟨hresult f' rfl,hs.scanned⟩
  | error e => exact hs

theorem Session.Coherent.perform (hs : s.Coherent) (op : Operation) (hop : op.Issued s) :
    (s.perform op).1.Coherent := by
  have hf := hs.file
  cases op with
  | update advance build faults => exact ⟨hf.update faults hop,hs.scanned⟩
  | persistFreeSpace faults =>
    refine ⟨?_,hs.scanned⟩
    dsimp only [Session.perform,File.persistFreeSpace]
    split_ifs with htracked hzero
    · exact hf
    · exact hf
    · exact hf.update faults (fun hsum => absurd hsum (by omega))
  | read r =>
    dsimp only [Session.perform]
    split_ifs
    · exact ⟨hf.withCache (readThrough_warmed r s.file.cache),hs.scanned⟩
    · exact hs
  | addPin sequence replay =>
    dsimp only [Session.perform]
    split_ifs with hopened
    · refine hs.withFile (fun f' h => ?_)
      obtain ⟨⟨_,_⟩,hadd,rfl⟩ := map_eq_ok.mp h
      obtain ⟨-,hadd⟩ := guard_eq_ok.mp hadd
      cases hadd
      exact hf.pin (hf.rootPage hopened)
    · exact hs
  | copyPin pinID =>
    dsimp only [Session.perform]
    split_ifs with hopened
    · refine hs.withFile (fun f' h => ?_)
      obtain ⟨⟨_,_⟩,hcopy,rfl⟩ := map_eq_ok.mp h
      unfold File.copyReaderPin at hcopy
      cases hpin : s.file.readers.find pinID with
      | none =>
        rw [hpin] at hcopy
        cases hcopy
      | some pin =>
        rw [hpin] at hcopy
        obtain ⟨-,hcopy⟩ := guard_eq_ok.mp hcopy
        cases hcopy
        exact hf.pin (fun hzero => hf.pinned hzero _ (mem_pinnedRoots.mpr ⟨pinID,pin,hpin,rfl⟩))
    · exact hs
  | movePin pinID sequence =>
    dsimp only [Session.perform]
    split_ifs with hopened
    · refine hs.withFile (fun f' h => ?_)
      unfold File.moveReaderPin at h
      cases hpin : s.file.readers.find pinID with
      | none =>
        rw [hpin] at h
        cases h
      | some pin =>
        rw [hpin] at h
        cases h
        exact hf.pin (hf.rootPage hopened)
    · exact hs
  | dropPin pinID =>
    exact ⟨hf.withReaders (fun hzero r hr => hf.pinned hzero r (pinnedRoots_erase hr)),hs.scanned⟩
  | reclaim checks => exact ⟨hf.reclaim checks,hs.scanned⟩
  | capture =>
    dsimp only [Session.perform]
    cases s.file.captureReclamationAudit with
    | ok audit => exact ⟨hf,hs.scanned⟩
    | error e => exact hs
  | scan index checks =>
    dsimp only [Session.perform]
    cases s.captured[index]? with
    | none => exact hs
    | some audit =>
      dsimp only
      cases hscan : audit.scan s.file.pages checks with
      | error e => exact hs
      | ok free =>
        refine ⟨hf,fun e he => ?_⟩
        rcases mem_append.mp he with he | he
        · exact hs.scanned e he
        · rw [mem_singleton.mp he]
          exact scan_pool hscan
  | install index persist =>
    dsimp only [Session.perform]
    cases hscanned : s.scanned[index]? with
    | none => exact hs
    | some entry => exact ⟨hf.install persist (hs.scanned entry (mem_of_getElem? hscanned)),hs.scanned⟩
  | close => exact ⟨⟨hf.pool,hf.cached_lt,hf.cached,(fun hopened => nomatch hopened),hf.pinned⟩,hs.scanned⟩
  | crash fates maxPhysicalPages => exact reopen_coherent _ _

theorem Reaches.coherent (h : Reaches Operation.Issued s) : s.Coherent :=
  h.invariant (fun databaseID maxPhysicalPages =>
    ⟨createFile_coherent databaseID maxPhysicalPages,fun _ he => absurd he not_mem_nil⟩)
    (fun _ op hs hop => hs.perform op hop)

end Run

/-! ### No trace -/

/-- What can still change in memory after a fatal error. -/
def File.Frozen (f f' : File) : Prop :=
  f' = { f with cache := f'.cache, readers := f'.readers, nextPin := f'.nextPin, opened := f'.opened }

section NoTrace
variable {f f' f'' : File}

theorem File.Frozen.refl (f : File) : f.Frozen f := rfl

theorem File.Frozen.trans (h : f.Frozen f') (h' : f'.Frozen f'') : f.Frozen f'' := by
  unfold File.Frozen at *
  rw [h',h]

def newFile : Session := .start (createFile ⟨.filled 2,rfl⟩ 16)

/-- A commit whose catalog is one new leaf. -/
def leafCommit (sequence : ℕ) : Build DatabaseRoot :=
  .appendNode .catalog (.leaf [] 0) fun leaf =>
    .done { DatabaseRoot.empty with commitSequence := sequence, catalogRoot := leaf.pageID }

/-- Three versions, of which the pages of the first are free again. -/
def reclaimedFile : Session :=
  newFile.run [.update 1 (leafCommit 1) fun _ => none,.update 1 (leafCommit 2) fun _ => none,
    .update 1 (leafCommit 3) fun _ => none,
    .reclaim fun _ _ => true]

theorem reclaimedFile_reached : Reaches Operation.Issued reclaimedFile :=
  (((Reaches.create _ _).step _ (fun h => absurd h (Nat.succ_ne_zero _))).step _ (fun h => absurd h (Nat.succ_ne_zero _))).step _
    (fun h => absurd h (Nat.succ_ne_zero _)) |>.step _ trivial
def tornFirst (k : ℕ) : Option IOFailure := if k = 0 then some ⟨5,.torn⟩ else none

end NoTrace
/-- No update, however it ends, changes a page in use. -/
theorem update_spares_pages_in_use {s : Session} (h : Reaches Operation.Issued s) (advance : ℕ)
    (build : Build DatabaseRoot) (faults : ℕ → Option IOFailure) {q : ℕ} (hq : q ∉ s.file.freePages)
    (hlt : q < s.file.nextPage) : (s.file.updateAdvance advance build faults).1.pages q = s.file.pages q := by
  have hspared : ∀ {cache p device failure}, Staged s.file advance build cache p →
      s.file.device.perform faults 0 p.dataCalls = (device,failure) → device.view.pages q = s.file.pages q :=
    fun hstaged hdata => perform_data_pages hdata ((hstaged.fresh h.coherent.file.pool).spares hq hlt)
  have houtcome := updateAdvance_cases s.file advance build faults
  generalize s.file.updateAdvance advance build faults = result at houtcome
  obtain ⟨f',outcome⟩ := result
  dsimp only at houtcome ⊢
  cases houtcome with
  | unencoded hstaged hdata _ => exact hspared hstaged hdata
  | dataFailed hstaged hdata => exact hspared hstaged hdata
  | metaFailed hstaged hdata _ hslot => exact (perform_meta_pages hslot q).trans (hspared hstaged hdata)
  | published hstaged hdata _ hslot => exact (perform_meta_pages hslot q).trans (hspared hstaged hdata)
  | _ => rfl

/-- The torn page is one that was free; the root of the current version is spared. -/
theorem torn_commit_spares_root : reclaimedFile.file.current.rootPage = 7 ∧ (reclaimedFile.file.pages 7).isSome ∧
    (reclaimedFile.file.pages 3).isSome ∧ (reclaimedFile.file.updateAdvance 1 (leafCommit 4) tornFirst).1.pages 3 = none ∧
    (reclaimedFile.file.updateAdvance 1 (leafCommit 4) tornFirst).1.pages 7 = reclaimedFile.file.pages 7 :=
  ⟨by decide +kernel,by decide +kernel,by decide +kernel,by decide +kernel,
    update_spares_pages_in_use reclaimedFile_reached 1 (leafCommit 4) tornFirst (by decide +kernel) (by decide +kernel)⟩

end Meldbase.Physical
