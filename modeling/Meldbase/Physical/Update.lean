import Meldbase.Physical.Graph
import Meldbase.Storage.MutableTree

/-! # Publishing a database version

The open file and `updateUnlockedAdvance`: a callback stages pages, the staged
pages and the root page are written and synced, then the inactive Meta slot.  The
memory state changes only after the second sync.
-/
namespace Meldbase.Physical
open Storage (TreeKind TreeNode PageRef MutableTree)
open Logical (maxUint64 OverflowPage overflowPages overflowChunks overflowChunkBytes inlineCommitValueLimit)
open FixedWidth

inductive UpdateError where
  | storage (e : StorageError)
  | io (code : ℕ)
  deriving DecidableEq

structure ReaderPin where
  (generation sequence rootPage : ℕ)
  replay : Bool
  deriving DecidableEq

/-- The open file; `current` is the Meta record of the current version. -/
structure File where
  device : Device
  opened : Bool
  current : Meta
  root : DatabaseRoot
  metaSlot : Fin 2
  metas : Fin 2 → Option Meta
  metaOK : Fin 2 → Bool
  nextPage : ℕ
  fatalErr : Option UpdateError
  nextPin : ℕ
  readers : SortedMap ℕ ReaderPin
  cache : PageCache
  freePages : List ℕ
  freePoolVersion : ℕ
  (freeSpaceTracked freeSpaceNeedsRebuild : Bool)
  (retainedCommitBytes maxPhysicalPages : ℕ)

/-- Pages as `readDataPageUnlocked` finds them, cached or on disk. -/
def File.pages (f : File) : ℕ → Option DataPage := f.device.view.pages

structure WriteTxn extends Storage.WriteTxn PageBody where
  baseRoot : DatabaseRoot
  (freeSpaceTracked freeSpaceRebuild retentionEvaluated : Bool)
  retainedCommitBytes : ℕ
  requiredFeatures : Features
  indexBuildCatalogChanged : Bool

/-! ### Callbacks -/

/-- An update callback: any use of the transaction that ends with a value or an
error.  What a callback can put on pages is tree nodes and the overflow chains of
long values; it gives up when the transaction refuses. -/
inductive Build (α : Type) where
  | done (a : α)
  | fail (e : StorageError)
  | read (pageID : ℕ) (next : Option DataPage → Build α)
  | appendNode (kind : TreeKind) (node : TreeNode Bytes Value PageRef) (next : PageRef → Build α)
  | storeValue (kind : OverflowKind) (value sum : Bytes) (next : Bytes → Build α)
  | require (feature : Features) (next : Build α)
  | retain (retainedCommitBytes : ℕ) (next : Build α)
  | changeBuilds (next : Build α)

variable (tx : WriteTxn)

def WriteTxn.readPage (pages : ℕ → Option DataPage) (cache : PageCache) (pageID : ℕ) :
    Option DataPage × PageCache :=
  match tx.staged pageID with
  | some page => (some page,cache)
  | none => readDataPage tx.filePages pages cache pageID
def allocatePageIDs : ℕ → Storage.WriteTxn PageBody → Except StorageError (List ℕ × Storage.WriteTxn PageBody)
  | 0, tx => .ok ([],tx)
  | count+1, tx => do
    let (id,tx) ← tx.allocatePageID
    let (ids,tx) ← allocatePageIDs count tx
    .ok (id::ids,tx)
def stagePages (kind : OverflowKind) :
    List (ℕ × OverflowPage) → Storage.WriteTxn PageBody → Except StorageError (Storage.WriteTxn PageBody)
  | [], tx => .ok tx
  | (id,page) :: rest, tx => do
    let tx ← tx.appendPageAt id (.overflow kind page.payload page.link)
    stagePages kind rest tx
def storeValue (kind : OverflowKind) (value sum : Bytes) (tx : Storage.WriteTxn PageBody) :
    Except StorageError (Bytes × Storage.WriteTxn PageBody) :=
  if (kind ≠ .commit && value.length = 0) || kind.maximum < value.length then .error .corrupt
  else if value.length+1 ≤ inlineCommitValueLimit then .ok (0::value,tx)
  else do
    let chunks := overflowChunks value.length
    let (pageIDs,tx) ← allocatePageIDs chunks tx
    let tx ← stagePages kind
      (overflowPages value.length chunks 0 pageIDs (Framing.pieces overflowChunkBytes chunks value)) tx
    .ok (1 :: [littleEndian 8 value.length,littleEndian 8 (pageIDs.headD 0),sum].flatten,tx)
def WriteTxn.requireFeature (feature : Features) : Except StorageError WriteTxn :=
  if feature = 0 ∨ feature &&& ~~~supportedRequiredFeatures ≠ 0 then .error .unsupportedFeature
  else .ok { tx with requiredFeatures := tx.requiredFeatures ||| feature }
def Build.run {α : Type} (pages : ℕ → Option DataPage) :
    Build α → WriteTxn → PageCache → Except StorageError (α × WriteTxn) × PageCache
  | .done a, tx, cache => (.ok (a,tx),cache)
  | .fail e, _, cache => (.error e,cache)
  | .read pageID next, tx, cache =>
    let (page,cache) := tx.readPage pages cache pageID
    run pages (next page) tx cache
  | .appendNode kind node next, tx, cache =>
    match pageCodec.writeNode kind tx.toWriteTxn node with
    | .ok (page,staged) => run pages (next page) { tx with toWriteTxn := staged } cache
    | .error e => (.error e,cache)
  | .storeValue kind value sum next, tx, cache =>
    match Physical.storeValue kind value sum tx.toWriteTxn with
    | .ok (descriptor,staged) => run pages (next descriptor) { tx with toWriteTxn := staged } cache
    | .error e => (.error e,cache)
  | .require feature next, tx, cache =>
    match tx.requireFeature feature with
    | .ok tx => run pages next tx cache
    | .error e => (.error e,cache)
  | .retain bytes next, tx, cache =>
    run pages next { tx with retentionEvaluated := true, retainedCommitBytes := bytes } cache
  | .changeBuilds next, tx, cache => run pages next { tx with indexBuildCatalogChanged := true } cache

/-! ### The free-space tree -/

def freeSpaceKey (pageID : ℕ) : Bytes := bigEndian 8 pageID
def encodeFreeSpaceExtent (finish safePhysicalPages auditGeneration : ℕ) : Except StorageError Value :=
  if finish ≤ 2 || safePhysicalPages < finish || auditGeneration = 0 then .error .corrupt
  else .ok (.extent finish safePhysicalPages auditGeneration)

/-- The maximal runs of consecutive numbers, as half-open intervals. -/
def extents : List ℕ → List (ℕ × ℕ)
  | [] => []
  | p::rest =>
    match extents rest with
    | (start,finish) :: more => if start = p+1 then (p,finish) :: more else (p,p+1) :: (start,finish) :: more
    | [] => [(p,p+1)]
def putExtent (tree : MutableTree Bytes Value) (extent : ℕ × ℕ) :
    Except StorageError (MutableTree Bytes Value) := do
  let value ← encodeFreeSpaceExtent extent.2 tx.nextPage tx.generation
  tree.put pageCodec tx.toWriteTxn (freeSpaceKey extent.1) value

/-- Writes the free pages as a tree of extents, on pages past the end of the file. -/
def WriteTxn.finalizeFreeSpace (root : DatabaseRoot) : Except StorageError (WriteTxn × DatabaseRoot) :=
  if !tx.freeSpaceTracked then .ok (tx,{ root with freeSpaceRoot := 0 })
  else if !tx.freeSpaceRebuild then .ok (tx,{ root with freeSpaceRoot := tx.baseRoot.freeSpaceRoot })
  else if tx.freePages = [] then .ok (tx,{ root with freeSpaceRoot := 0 })
  else do
    let tree ← MutableTree.openTree pageCodec tx.toWriteTxn 0 .freeSpace
    let tree ← (extents tx.freePages).foldlM (putExtent tx) tree
    let (freeSpaceRoot,flushed,_) ← tree.flush pageCodec { tx.toWriteTxn with metadataAllocation := true }
    .ok ({ tx with toWriteTxn := { flushed with metadataAllocation := false } },{ root with freeSpaceRoot := freeSpaceRoot })

/-! ### The update -/

variable (f : File)
variable (advance : ℕ)

def File.beginUpdate : WriteTxn where
  file := fun pageID => (f.cache.get pageID).or (f.pages pageID)
  filePages := f.nextPage
  maxPhysicalPages := f.maxPhysicalPages
  generation := f.current.generation+1
  sequence := f.current.commitSequence+advance
  nextPage := f.nextPage
  freePages := f.freePages
  baseRoot := f.root
  freeSpaceTracked := f.freeSpaceTracked
  freeSpaceRebuild := f.freeSpaceNeedsRebuild
  retentionEvaluated := false
  retainedCommitBytes := f.retainedCommitBytes
  requiredFeatures := f.current.requiredFeatures
  indexBuildCatalogChanged := false

/-- What is ready to be written: the transaction, its root and the root page. -/
structure Prepared where
  tx : WriteTxn
  root : DatabaseRoot
  rootPageID : ℕ
  rootPage : DataPage

/-- Everything between the callback's return and the first page write. -/
def WriteTxn.prepare (root : DatabaseRoot) : Except StorageError Prepared :=
  let root := if tx.indexBuildCatalogChanged then root
    else { root with indexBuildCatalogRoot := tx.baseRoot.indexBuildCatalogRoot }
  if root.commitSequence ≠ tx.sequence || tx.sequence < root.oldestRetainedSequence ||
      (root.indexBuildCatalogRoot ≠ 0 && tx.requiredFeatures &&& requiredFeatureShadowIndexBuilds = 0) then .error .corrupt
  else do
    let (rootPageID,allocated) ← tx.toWriteTxn.allocatePageID
    let (tx,root) ← WriteTxn.finalizeFreeSpace { tx with toWriteTxn := allocated } root
    let rootPage ← encodeDatabaseRoot rootPageID tx.generation root
    .ok ⟨tx,root,rootPageID,rootPage⟩

variable (p : Prepared)

def Prepared.writes : List (ℕ × DataPage) := p.tx.pages ++ [(p.rootPageID,p.rootPage)]
def Prepared.meta (old : Meta) : Meta where
  databaseID := old.databaseID
  generation := p.tx.generation
  commitSequence := p.tx.sequence
  rootPage := p.rootPageID
  physicalPageCount := p.tx.nextPage
  oldestRetainedSequence := p.root.oldestRetainedSequence
  requiredFeatures := p.tx.requiredFeatures
  optionalFeatures :=
    if p.tx.freeSpaceTracked then old.optionalFeatures ||| optionalFeaturePersistentFreeSpace
    else old.optionalFeatures &&& ~~~optionalFeaturePersistentFreeSpace
def Prepared.dataCalls : List IOCall := p.writes.map (fun w => .write (.page w.1 w.2)) ++ [.sync]
def metaCalls (slot : Fin 2) (m : Meta) : List IOCall := [.write (.slot slot m),.sync]

instance slotNeZero : NeZero 2 := ⟨by decide⟩

def otherSlot (slot : Fin 2) : Fin 2 := 1 - slot
def File.publish (m : Meta) : File := { f with
  cache := f.cache.invalidate p.tx.reusedPages
  current := m
  root := p.root
  metaSlot := otherSlot f.metaSlot
  nextPage := p.tx.nextPage
  freePages := p.tx.freePages
  freePoolVersion := f.freePoolVersion+1
  freeSpaceTracked := p.tx.freeSpaceTracked
  freeSpaceNeedsRebuild := false
  metas := fun slot => if slot = otherSlot f.metaSlot then some m else f.metas slot
  metaOK := fun slot => if slot = otherSlot f.metaSlot then true else f.metaOK slot
  retainedCommitBytes := if p.tx.retentionEvaluated then p.tx.retainedCommitBytes else f.retainedCommitBytes }
def File.failCommit (device : Device) (failure : IOFailure) : File × Except UpdateError Unit :=
  ({ f with device := device, fatalErr := some (.io failure.code) },.error (.io failure.code))

variable (faults : ℕ → Option IOFailure)

/-- Writes the Meta record of a version whose pages are durable. -/
def File.publishMeta : File × Except UpdateError Unit :=
  match encodeMeta (p.meta f.current) with
  | .error e => (f,.error (.storage e))
  | .ok m =>
    match f.device.perform faults p.dataCalls.length (metaCalls (otherSlot f.metaSlot) m) with
    | (device,some failure) => f.failCommit device failure
    | (device,none) => (File.publish { f with device := device } p m,.ok ())
def File.write : File × Except UpdateError Unit :=
  match f.device.perform faults 0 p.dataCalls with
  | (device,some failure) => f.failCommit device failure
  | (device,none) => File.publishMeta { f with device := device } p faults
def File.attempt (build : Build DatabaseRoot) (faults : ℕ → Option IOFailure) :
    File × Except UpdateError Unit :=
  if maxUint64 < f.current.commitSequence+advance || maxUint64 < f.current.generation+1 then
    (f,.error (.storage .corrupt))
  else match build.run f.pages (f.beginUpdate advance) f.cache with
  | (.error e,cache) => ({ f with cache := cache },.error (.storage e))
  | (.ok (root,tx),cache) =>
    match tx.prepare root with
    | .error e => ({ f with cache := cache },.error (.storage e))
    | .ok p => File.write { f with cache := cache } p faults

/-- `updateUnlockedAdvance`; `faults` says which I/O calls of this update fail. -/
def File.updateAdvance (build : Build DatabaseRoot) (faults : ℕ → Option IOFailure) :
    File × Except UpdateError Unit :=
  if !f.opened then (f,.error (.storage .closed))
  else match f.fatalErr with
  | some e => (f,.error e)
  | none => f.attempt advance build faults

end Meldbase.Physical
