import Meldbase.Logical.CommitCodec
import Meldbase.Logical.Moves

/-! # The commit log on disk

In every state that a session reaches the commit tree holds one interval of
sequences, each with its header and exactly its changes, and the byte total kept in
memory is the one recomputed at open: from the records, and from the bytes that
stand for them inline or in overflow pages.
-/
namespace Meldbase.Logical
open List
open Outcome (bind_eq_ok guard_eq_ok ok_bind)
open FixedWidth

/-! ### The bytes of a log -/

/-- Where the trees of a file are stored and how its catalog images are written. -/
structure Layout where
  primaryPage : Root Identifier DocumentRecord → ℕ
  catalogPage : Option Catalog → ℕ
  image : ChangeImage → Bytes
  primary_two_le : ∀ t, 2 ≤ primaryPage (some t)
  primary_le : ∀ r, primaryPage r ≤ maxUint64
  catalog_none : catalogPage none = 0
  catalog_two_le : ∀ c, 2 ≤ catalogPage (some c)
  catalog_le : ∀ r, catalogPage r ≤ maxUint64
  image_length : ∀ i, (image i).length = i.length

variable (L : Layout)

def Layout.ref (r : DocumentVersionRef) : RawVersionRef := ⟨L.primaryPage r.primaryRoot,r.documentID⟩
def Layout.change (c : CommitChange) : RawChange where
  collectionID := c.collectionID
  collectionName := c.collectionName
  documentID := c.documentID
  operation := c.operation
  changedPaths := c.changedPaths
  before := L.image c.before
  after := L.image c.after
  beforeRef := c.beforeRef.map L.ref
  afterRef := c.afterRef.map L.ref

variable (checksum : Bytes → Bytes)

def changesDigest (changes : List Bytes) : Bytes :=
  checksum (changes.flatMap (fun c => littleEndian 4 c.length ++ c))
def Layout.header (h : CommitHeader) : RawHeader where
  transactionID := h.transactionID
  committedAt := h.committedAt
  count := h.count
  catalogRoot := L.catalogPage h.catalogRoot
  digest := changesDigest checksum (h.digest.map (fun c => (L.change c).bytes))
def Layout.value : CommitValue → Bytes
  | .header h => (L.header checksum h).bytes h.sequence
  | .change c => (L.change c).bytes

/-- Numbers that the code keeps in 32-bit and 64-bit words. -/
def CommitValue.Fits : CommitValue → Prop
  | .header h => h.sequence ≤ maxUint64 ∧ h.committedAt ≤ maxUint64
  | .change c => c.collectionID ≤ maxUint32

instance : DecidablePred CommitValue.Fits
  | .header h => inferInstanceAs (Decidable (h.sequence ≤ maxUint64 ∧ h.committedAt ≤ maxUint64))
  | .change c => inferInstanceAs (Decidable (c.collectionID ≤ maxUint32))

/-- The stored tree has the keys of the logical one, and each of its values is what
`storeCommitValue` made of the record, with its overflow pages still there. -/
structure StoredLog (L : Layout) (checksum : Bytes → Bytes) (pages : ℕ → Option OverflowPage)
    (stored : SortedMap CommitKey Bytes) (tree : CommitTree) : Prop where
  checksum_length : ∀ b, (checksum b).length = 32
  keys : ∀ k, stored.find k = none ↔ tree.find k = none
  records : ∀ k v b, tree.find k = some v → stored.find k = some b → ∃ pageIDs written,
    (inlineCommitValueLimit ≤ (L.value checksum v).length → PagesFor pageIDs (L.value checksum v).length) ∧
      storeCommitValue checksum pageIDs (L.value checksum v) = .ok (b,written) ∧
      ∀ e ∈ written, pages e.1 = some e.2
  fits : ∀ k v, tree.find k = some v → v.Fits

/-- `calculateRetainedCommitBytes` over the stored descriptors. -/
def calculateStoredCommitBytes (stored : SortedMap CommitKey Bytes) : Except StorageError ℕ :=
  (stored.entries.map Prod.snd).foldlM (fun total b => do
    let size ← descriptorLogicalBytes b
    if maxUint64 < total+size then .error .corrupt else .ok (total+size)) 0

section Reading
variable (checksum : Bytes → Bytes) (pages : ℕ → Option OverflowPage) (stored : SortedMap CommitKey Bytes)

/-- One record of `readCommitUsing`, loaded. -/
def loadRecord (sequence ordinal : ℕ) : Except StorageError Bytes :=
  match stored.find (commitKey sequence ordinal) with
  | none => .error .corrupt
  | some b => loadCommitValue checksum pages b
def readStoredChanges (sequence : ℕ) : ℕ → ℕ → Except StorageError (List (Bytes × RawChange))
  | _, 0 => .ok []
  | ordinal, n+1 => do
    let encoded ← loadRecord checksum pages stored sequence ordinal
    let change ← decodeRawChange encoded
    let rest ← readStoredChanges sequence (ordinal+1) n
    .ok ((encoded,change) :: rest)

/-- `readCommitUsing` on stored bytes. -/
def readStoredCommit (sequence : ℕ) : Except StorageError (RawHeader × List RawChange) :=
  if sequence = 0 then .error .corrupt
  else do
    let encoded ← loadRecord checksum pages stored sequence 0
    let header ← decodeRawHeader sequence encoded
    let changes ← readStoredChanges checksum pages stored sequence 1 header.count
    if header.digest ≠ changesDigest checksum (changes.map Prod.fst) then .error .corrupt
    else .ok (header,changes.map Prod.snd)

end Reading

/-! ### Encoded changes have encodable bytes -/

theorem Layout.length_change (c : CommitChange) : (L.change c).bytes.length = encodedChangeBytes c := by
  rw [RawChange.length_bytes]
  simp only [RawChange.size,Layout.change,L.image_length,encodedChangeBytes]

theorem Layout.validRef {image : ChangeImage} {ref : Option DocumentVersionRef}
    (h : validVersionRef documentID image ref = true) :
    validRawRef documentID (L.image image) (ref.map L.ref) = true := by
  cases ref with
  | none => rfl
  | some r =>
    simp only [validVersionRef,Bool.and_eq_true,decide_eq_true_eq] at h
    obtain ⟨⟨hempty,hroot⟩,hdocument⟩ := h
    obtain ⟨tree,htree⟩ := Option.isSome_iff_exists.mp hroot
    simp only [Option.map_some,validRawRef,Layout.ref,Bool.and_eq_true,decide_eq_true_eq,L.image_length]
    refine ⟨⟨hempty,?_⟩,hdocument⟩
    rw [htree]
    exact L.primary_two_le tree

theorem Layout.encodable (h : encodeCommitChange submitted = .ok c) : (L.change c).Encodable := by
  unfold encodeCommitChange at h
  obtain ⟨hid,h⟩ := guard_eq_ok.mp h
  obtain ⟨hdocument,h⟩ := guard_eq_ok.mp h
  obtain ⟨hname,h⟩ := guard_eq_ok.mp h
  obtain ⟨hrefs,h⟩ := guard_eq_ok.mp h
  obtain ⟨paths,hpaths,h⟩ := bind_eq_ok.mp h
  obtain ⟨hsize,h⟩ := guard_eq_ok.mp h
  cases h
  simp only [Bool.or_eq_true,Bool.and_eq_true,decide_eq_true_eq,not_or,not_and,Bool.not_eq_true',Bool.not_eq_true,
    Bool.not_eq_false] at hid hdocument hname hrefs
  refine ⟨hid.1.1,hdocument,?_,hname.2,L.validRef hrefs.1,L.validRef hrefs.2,normalizeChangedPaths_ok hpaths,?_⟩
  · intro hop
    exact not_not.mp (hname.1 hop)
  · rw [← RawChange.length_bytes,L.length_change]
    exact not_lt.mp hsize

theorem Layout.refPage_le (ref : Option DocumentVersionRef) : refPage (ref.map L.ref) ≤ maxUint64 := by
  cases ref with
  | none => exact Nat.zero_le _
  | some r => exact L.primary_le r.primaryRoot

theorem Layout.decode_change (h : encodeCommitChange submitted = .ok c)
    (hfits : c.collectionID ≤ maxUint32) : decodeRawChange (L.change c).bytes = .ok (L.change c) :=
  decodeRawChange_bytes ⟨hfits,L.refPage_le c.beforeRef,L.refPage_le c.afterRef⟩ (L.encodable h)

/-! ### Reading a retained commit -/

section Stored
variable {L : Layout} {checksum : Bytes → Bytes} {pages : ℕ → Option OverflowPage}
  {stored : SortedMap CommitKey Bytes} {tree : CommitTree}

section
variable (h : StoredLog L checksum pages stored tree)
include h

theorem StoredLog.load (hv : tree.find k = some v) (hb : stored.find k = some b) :
    loadCommitValue checksum pages b = .ok (L.value checksum v) := by
  obtain ⟨pageIDs,written,hids,hstore,hpages⟩ := h.records k v b hv hb
  exact loadCommitValue_store checksum (h.checksum_length _) hids hstore hpages

theorem StoredLog.loadRecord_eq {sequence : ℕ}
    (hfind : tree.find (commitKey sequence ordinal) = some v) :
    loadRecord checksum pages stored sequence ordinal = .ok (L.value checksum v) := by
  unfold loadRecord
  cases hb : stored.find (commitKey sequence ordinal) with
  | none =>
    rw [(h.keys _).mp hb] at hfind
    cases hfind
  | some b => exact h.load hfind hb

theorem StoredLog.readStoredChanges_eq {sequence : ℕ}
    {cs : List CommitChange} (hencoded : ∀ c ∈ cs, ∃ submitted, encodeCommitChange submitted = .ok c)
    (hfind : ∀ i, i < cs.length → tree.find (commitKey sequence (ordinal+i)) = cs[i]?.map .change) :
    readStoredChanges checksum pages stored sequence ordinal cs.length =
      .ok (cs.map (fun c => ((L.change c).bytes,L.change c))) := by
  induction cs generalizing ordinal with
  | nil => rfl
  | cons c cs ih =>
    have hfirst : tree.find (commitKey sequence ordinal) = some (.change c) := by simpa using hfind 0 (by simp)
    obtain ⟨submitted,hsubmitted⟩ := hencoded c mem_cons_self
    have hrest := ih (fun c' hc' => hencoded c' (mem_cons_of_mem _ hc')) (by
      intro i hi
      have := hfind (i+1) (by simpa using hi)
      rwa [show ordinal + (i+1) = ordinal+1+i by omega,List.getElem?_cons_succ] at this)
    rw [length_cons,readStoredChanges,h.loadRecord_eq hfirst,ok_bind,
      show L.value checksum (.change c) = (L.change c).bytes from rfl,
      L.decode_change hsubmitted (h.fits _ _ hfirst),ok_bind,hrest,ok_bind,map_cons]

end

theorem Layout.header_encodable (L : Layout) (hchecksum : ∀ b, (checksum b).length = 32)
    (hok : BatchOk batch q) (hencoded : EncodedBatch batch) (hfits : (CommitValue.header (headerOf batch)).Fits) :
    (L.header checksum (headerOf batch)).Encodable q := by
  obtain ⟨rfl,hne,htransaction⟩ := hok
  obtain ⟨hsequence,hcommitted⟩ := hfits
  refine ⟨hsequence,hcommitted,hencoded.count,?_,?_,htransaction,hchecksum _⟩
  · intro hzero
    exact hne (length_eq_zero_iff.mp hzero)
  have hpage : (L.header checksum (headerOf batch)).catalogRoot = L.catalogPage batch.catalogRoot := rfl
  rw [hpage]
  cases batch.catalogRoot with
  | none => exact .inl L.catalog_none
  | some c => exact .inr ⟨L.catalog_two_le c,L.catalog_le _⟩

/-- A retained commit reads back from its bytes as its header and changes. -/
theorem StoredLog.readStoredCommit_eq (h : StoredLog L checksum pages stored tree)
    {log : ℕ → CommitBatch} (hlog : LogHolds tree oldest latest log) (hpos : 0 < q) (hlo : oldest ≤ q) (hhi : q ≤ latest)
    (hencoded : EncodedBatch (log q)) :
    readStoredCommit checksum pages stored q =
      .ok (L.header checksum (headerOf (log q)),(log q).changes.map L.change) := by
  have hok := hlog.batch q hpos hlo hhi
  have hfind : ∀ o, tree.find (commitKey q o) = batchValue (log q) o := by
    intro o
    rw [hlog.find,if_pos ⟨hpos,hlo,hhi⟩]
  have hheader : tree.find (commitKey q 0) = some (.header (headerOf (log q))) := hfind 0
  have hdecoded := decodeRawHeader_bytes (L.header_encodable h.checksum_length hok hencoded (h.fits _ _ hheader))
  have hchanges : readStoredChanges checksum pages stored q 1 (log q).changes.length =
      .ok ((log q).changes.map (fun c => ((L.change c).bytes,L.change c))) := by
    refine h.readStoredChanges_eq hencoded.changes ?_
    intro i _
    rw [hfind,Nat.add_comm]
    rfl
  have hvalue : L.value checksum (.header (headerOf (log q))) = (L.header checksum (headerOf (log q))).bytes q := by
    unfold Layout.value
    dsimp only
    rw [show (headerOf (log q)).sequence = q from hok.sequence_eq]
  have hcount : (L.header checksum (headerOf (log q))).count = (log q).changes.length := rfl
  unfold readStoredCommit
  rw [if_neg (by omega),h.loadRecord_eq hheader,ok_bind,hvalue,hdecoded,ok_bind,hcount,hchanges,
    ok_bind,map_map,map_map,if_neg]
  · rfl
  · intro hdiffer
    exact hdiffer rfl

theorem Layout.length_value (L : Layout) (hchecksum : ∀ b, (checksum b).length = 32) (v : CommitValue) :
    (L.value checksum v).length = storedCommitLogicalBytes v := by
  cases v with
  | header h => exact RawHeader.length_bytes (hchecksum _)
  | change c => exact L.length_change c

/-- The descriptors alone give the total of the records. -/
theorem StoredLog.calculate_eq (h : StoredLog L checksum pages stored tree) :
    calculateStoredCommitBytes stored = calculateRetainedCommitBytes tree := by
  have hmap : stored = tree.map (fun k _ => (stored.find k).getD []) := by
    apply SortedMap.ext_find
    intro k
    rw [SortedMap.find_map]
    cases hv : tree.find k with
    | none => exact (h.keys k).mpr hv
    | some v =>
      cases hb : stored.find k with
      | none =>
        rw [(h.keys k).mp hb] at hv
        cases hv
      | some b => rfl
  have hentries : stored.entries.map Prod.snd = tree.entries.map (fun e => (stored.find e.1).getD []) := by
    conv_lhs => rw [hmap,SortedMap.map]
    rw [map_map]
    rfl
  have hsize : ∀ e ∈ tree.entries, descriptorLogicalBytes ((stored.find e.1).getD []) =
      .ok (storedCommitLogicalBytes e.2) := by
    rintro ⟨k,v⟩ he
    have hv : tree.find k = some v := SortedMap.mem_entries.mp he
    cases hb : stored.find k with
    | none =>
      rw [(h.keys k).mp hb] at hv
      cases hv
    | some b =>
      rw [Option.getD_some,descriptorLogicalBytes_of_load checksum (h.load hv hb),L.length_value h.checksum_length]
  unfold calculateStoredCommitBytes calculateRetainedCommitBytes
  rw [hentries]
  generalize 0 = total
  revert hsize
  induction tree.entries generalizing total with
  | nil => intro _; rfl
  | cons e es ih =>
    intro hsize
    rw [map_cons,map_cons,foldlM_cons,foldlM_cons,hsize e mem_cons_self,ok_bind]
    split_ifs
    · rfl
    · rw [ok_bind,ok_bind]
      exact ih _ (fun e' he' => hsize e' (mem_cons_of_mem _ he'))

end Stored

/-! ### Every reachable state -/

/-- The records of a file's log: one header and its changes for each retained
sequence, nothing else, and their bytes. -/
structure LogExact (f : File) : Prop where
  retained : ∀ q, 0 < q → f.root.oldestRetainedSequence ≤ q → q ≤ f.root.commitSequence →
    ∃ batch : CommitBatch, batch.sequence = q ∧ batch.changes ≠ [] ∧
      (openTree f.root.commitLogRoot).find (commitKey q 0) = some (.header (headerOf batch)) ∧
      (∀ o, (openTree f.root.commitLogRoot).find (commitKey q (o+1)) = batch.changes[o]?.map .change) ∧
      readCommit (openTree f.root.commitLogRoot) q = .ok batch
  others : ∀ q o, ¬ (0 < q ∧ f.root.oldestRetainedSequence ≤ q ∧ q ≤ f.root.commitSequence) →
    (openTree f.root.commitLogRoot).find (commitKey q o) = none
  bytes : calculateRetainedCommitBytes (openTree f.root.commitLogRoot) = .ok f.retainedCommitBytes

theorem FileLogged.exact [Sha256] {log : ℕ → CommitBatch} (h : FileLogged f log) : LogExact f := by
  have hholds := h.logged.holds
  constructor
  · intro q hpos hlo hhi
    have hok := hholds.batch q hpos hlo hhi
    have hfind : ∀ o, (openTree f.root.commitLogRoot).find (commitKey q o) = batchValue (log q) o := by
      intro o
      rw [hholds.find,if_pos ⟨hpos,hlo,hhi⟩]
    exact ⟨log q,hok.sequence_eq,hok.changes_ne,hfind 0,fun o => hfind (o+1),hholds.readCommit_eq hpos hlo hhi⟩
  · intro q o hout
    rw [hholds.find,if_neg hout]
  have hbytes := h.logged.bytes_eq
  have hle := h.logged.bytes_le
  rw [calculateRetainedCommitBytes_eq (by omega),hbytes]

/-- In every reachable state the commit tree holds exactly the retained commits and
the byte total is the recomputed one; the bytes stored for it say the same. -/
theorem commit_log_exact [Sha256] {s : Session} (h : Session.Reaches (fun _ _ => True) s) : LogExact s.file ∧
      ∀ (L : Layout) (checksum : Bytes → Bytes) (pages : ℕ → Option OverflowPage) (stored : SortedMap CommitKey Bytes),
        StoredLog L checksum pages stored (openTree s.file.root.commitLogRoot) →
        calculateStoredCommitBytes stored = .ok s.file.retainedCommitBytes ∧
          ∀ q, 0 < q → s.file.root.oldestRetainedSequence ≤ q → q ≤ s.file.root.commitSequence →
            ∃ header changes, readStoredCommit checksum pages stored q = .ok (header,changes) ∧
              header.count = changes.length ∧ stored.find (commitKey q (changes.length+1)) = none := by
  obtain ⟨log,hlogged⟩ := h.logged
  have hexact := hlogged.file.exact
  have hholds := hlogged.file.logged.holds
  refine ⟨hexact,?_⟩
  intro L checksum pages stored hstored
  refine ⟨hstored.calculate_eq.trans hexact.bytes,?_⟩
  intro q hpos hlo hhi
  refine ⟨_,_,hstored.readStoredCommit_eq hholds hpos hlo hhi (hlogged.file.logged.encoded q hpos hlo hhi),?_,?_⟩
  · rw [length_map]
    rfl
  · rw [hstored.keys,length_map,hholds.find,if_pos ⟨hpos,hlo,hhi⟩,batchValue,List.getElem?_eq_none le_rfl,
      Option.map_none]

theorem storedLog_written {L : Layout} {checksum : Bytes → Bytes} (pages : ℕ → Option OverflowPage)
    (pageIDs : CommitKey → List ℕ) (hchecksum : ∀ b, (checksum b).length = 32)
    (hrecords : ∀ k v, tree.find k = some v → v.Fits ∧ (inlineCommitValueLimit ≤ (L.value checksum v).length →
      PagesFor (pageIDs k) (L.value checksum v).length) ∧ ∃ b written,
        storeCommitValue checksum (pageIDs k) (L.value checksum v) = .ok (b,written) ∧ ∀ e ∈ written, pages e.1 = some e.2) :
    StoredLog L checksum pages (tree.map (fun k v =>
      ((storeCommitValue checksum (pageIDs k) (L.value checksum v)).toOption.map Prod.fst).getD [])) tree := by
  refine ⟨hchecksum,?_,?_,fun k v hv => (hrecords k v hv).1⟩
  · intro k
    rw [SortedMap.find_map,Option.map_eq_none_iff]
  intro k v b hv hb
  obtain ⟨-,hids,bytes,written,hstored,hpages⟩ := hrecords k v hv
  rw [SortedMap.find_map,hv,Option.map_some,hstored] at hb
  cases hb
  exact ⟨pageIDs k,written,hids,hstored,hpages⟩

/-- Pages and images all alike. -/
def flatLayout : Layout where
  primaryPage r := if r.isSome then 2 else 0
  catalogPage r := if r.isSome then 2 else 0
  image i := List.replicate i.length 0
  primary_two_le _ := le_rfl
  primary_le r := by split_ifs <;> decide
  catalog_none := rfl
  catalog_two_le _ := le_rfl
  catalog_le r := by split_ifs <;> decide
  image_length _ := length_replicate
def noopCommit (n : Byte) : Operation := .publish ⟨.replicationNoop (.filled n) 0,rfl⟩

/-- An insert whose change does not fit inline. -/
def wideInsert : Operation :=
  .publish ⟨.documents ⟨.filled 3,0,[],[],
    [⟨[0x63],.ending 1,.insert,[0],[97,98,99,100,101,102,103,104,105].map (List.replicate 1000),[]⟩]⟩ [],rfl⟩

open scoped OwnDigest

def windowSession : Session := [noopCommit 1,noopCommit 2,wideInsert].foldl Session.step (Session.start (File.create 2 0))
def zeroChecksum (_ : Bytes) : Bytes := List.replicate 32 0
def windowWritten : List (ℕ × OverflowPage) :=
  (openTree windowSession.file.root.commitLogRoot).entries.flatMap (fun e =>
    ((storeCommitValue zeroChecksum [5] (flatLayout.value zeroChecksum e.2)).toOption.map Prod.snd).getD [])

theorem commit_log_exact_window :
    Session.Reaches (fun _ _ => True) windowSession ∧ windowSession.file.root.oldestRetainedSequence = 2 ∧
      LogExact windowSession.file ∧ windowSession.file.retainedCommitBytes = 9468 ∧ windowWritten.length = 1 ∧
      ∃ stored, StoredLog flatLayout zeroChecksum (lookup · windowWritten) stored
          (openTree windowSession.file.root.commitLogRoot) ∧
        calculateStoredCommitBytes stored = .ok windowSession.file.retainedCommitBytes := by
  have hreached : Session.Reaches (fun _ _ => True) windowSession := (Session.Reaches.create 2 0).foldl _
  obtain ⟨holdest,hretained,hone,hvalues⟩ : windowSession.file.root.oldestRetainedSequence = 2 ∧
      windowSession.file.retainedCommitBytes = 9468 ∧ windowWritten.length = 1 ∧
      ∀ v ∈ (openTree windowSession.file.root.commitLogRoot).entries.map Prod.snd, v.Fits ∧
        overflowChunks (flatLayout.value zeroChecksum v).length = 1 ∧
        (flatLayout.value zeroChecksum v).length ≤ maxCommitValueBytes := by
    decide +kernel
  obtain ⟨⟨id,page⟩,hw⟩ := length_eq_one_iff.mp hone
  have hstored := storedLog_written (L := flatLayout) (lookup · windowWritten) (fun _ => [5]) (fun _ => length_replicate)
      (fun k v (hv : (openTree windowSession.file.root.commitLogRoot).find k = some v) => by
    have hmem := SortedMap.mem_entries.mpr hv
    obtain ⟨hfits,hchunks,hlimit⟩ := hvalues v (mem_map_of_mem hmem)
    obtain ⟨r,hr⟩ : ∃ r, storeCommitValue zeroChecksum [5] (flatLayout.value zeroChecksum v) = .ok r := by
      unfold storeCommitValue
      rw [if_neg (not_lt.mpr hlimit)]
      split_ifs <;> exact ⟨_,rfl⟩
    refine ⟨hfits,fun _ => ⟨hchunks.symm,by simp,by simp,by simp [maxUint64]⟩,r.1,r.2,hr,fun e he => ?_⟩
    have hwritten : e ∈ windowWritten := mem_flatMap.mpr ⟨(k,v),hmem,by rw [hr]; exact he⟩
    rw [hw,mem_singleton] at hwritten
    simp [hw,hwritten])
  obtain ⟨hexact,hbytes⟩ := commit_log_exact hreached
  exact ⟨hreached,holdest,hexact,hretained,hone,_,hstored,(hbytes _ _ _ _ hstored).1⟩

end Meldbase.Logical
