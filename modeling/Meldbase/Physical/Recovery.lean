import Meldbase.Physical.Update
import Meldbase.Physical.Walker

/-! # Opening a file

`inspectExistingFile` selects the newest Meta record whose root page is valid, and
`OpenWithOptions` rebuilds the memory state from it: the retained bytes from the
commit log and the reusable pages from the free-space tree.
-/
namespace Meldbase.Physical
open Storage (TreeKind TreeNode PageRef)
open Logical (maxUint64 descriptorLogicalBytes)
open FixedWidth

/-! ### Choosing a version -/

variable (disk : Disk)

def slotMeta (slot : Fin 2) : Option Meta :=
  match decodeMeta (disk.slots slot) with
  | .ok m => if m.physicalPageCount ≤ disk.length then some m else none
  | .error _ => none
def referencedInFile (m : Meta) (page : ℕ) : Bool := page = 0 || (2 ≤ page && page < m.physicalPageCount)
def validateRoot (m : Meta) : Bool :=
  if m.rootPage = 0 then m.commitSequence = 0
  else if m.physicalPageCount ≤ m.rootPage then false
  else match disk.pages m.rootPage, decodeDatabaseRoot (disk.pages m.rootPage) with
    | some page, .ok root =>
      root.commitSequence = m.commitSequence && page.generation = m.generation &&
        root.oldestRetainedSequence = m.oldestRetainedSequence &&
        (root.indexBuildCatalogRoot = 0 || m.requiredFeatures &&& requiredFeatureShadowIndexBuilds ≠ 0) &&
        [root.catalogRoot,root.commitLogRoot,root.freeSpaceRoot,root.indexBuildCatalogRoot].all (referencedInFile m)
    | _, _ => false

variable (metas : Fin 2 → Option Meta)

def slotOrder : List (Fin 2) :=
  match metas 0, metas 1 with
  | none, _ => [1,0]
  | some m0, some m1 => if m0.generation < m1.generation then [1,0] else [0,1]
  | some _, none => [0,1]
def slotUsable (slot : Fin 2) : Bool :=
  match metas slot with
  | some m => validateRoot disk m
  | none => false

/-- Two valid slots must belong to one database and differ in generation. -/
def slotsConsistent : Bool :=
  match metas 0, metas 1 with
  | some m0, some m1 => m0.databaseID = m1.databaseID && (m0.generation ≠ m1.generation || m0 = m1)
  | none, none => false
  | _, _ => true
def isUnsupported (slot : Fin 2) : Bool :=
  match decodeMeta (disk.slots slot) with
  | .error .unsupportedFeature => true
  | _ => false
def readDatabaseRoot (m : Meta) : Except StorageError DatabaseRoot :=
  if m.rootPage = 0 then .ok { DatabaseRoot.empty with commitSequence := m.commitSequence }
  else do
    let root ← decodeDatabaseRoot (disk.pages m.rootPage)
    if root.commitSequence ≠ m.commitSequence then .error .corrupt else .ok root

structure ExistingFile where
  selected : Meta
  root : DatabaseRoot
  metaSlot : Fin 2
  metas : Fin 2 → Option Meta
  metaOK : Fin 2 → Bool
  nextPage : ℕ

def inspectExistingFile : Except StorageError ExistingFile :=
  let metas := slotMeta disk
  if disk.length < 2 then .error .corrupt
  else if isUnsupported disk 0 || isUnsupported disk 1 then .error .unsupportedFeature
  else if !slotsConsistent metas then .error .corrupt
  else match (slotOrder metas).find? (slotUsable disk metas) with
  | none => .error .corrupt
  | some slot =>
    match metas slot with
    | none => .error .corrupt
    | some m => do
      let root ← readDatabaseRoot disk m
      .ok ⟨m,root,slot,metas,slotUsable disk metas,disk.length⟩

/-! ### Scans -/

def maxTreeIteratorDepth : ℕ := 64
def treeEntries (pages : ℕ → Option DataPage) (kind : TreeKind) : ℕ → ℕ → Except StorageError (List (Bytes × Value))
  | 0, _ => .error .corrupt
  | fuel+1, pageID =>
    match nodeOf kind (pages pageID) with
    | none => .error .corrupt
    | some (.leaf entries _) => .ok entries
    | some (.branch _ children _) => do
      let parts ← children.mapM (fun child => treeEntries pages kind fuel child.pageID)
      .ok parts.flatten

variable (pages : ℕ → Option DataPage)

def scanTree (kind : TreeKind) (rootPage : ℕ) : Except StorageError (List (Bytes × Value)) :=
  if rootPage = 0 then .ok [] else treeEntries pages kind maxTreeIteratorDepth rootPage
def addStoredBytes (total : ℕ) (entry : Bytes × Value) : Except StorageError ℕ :=
  match entry.2 with
  | .commit descriptor => do
    let size ← descriptorLogicalBytes descriptor
    if maxUint64 < total+size then .error .corrupt else .ok (total+size)
  | _ => .error .corrupt
def calculateRetainedCommitBytes (rootPage : ℕ) : Except StorageError ℕ := do
  let entries ← scanTree pages .commitLog rootPage
  entries.foldlM addStoredBytes 0

/-! ### Reusable pages -/

def decodeFreeSpaceExtent (physicalPages : ℕ) (entry : Bytes × Value) : Except StorageError (ℕ × ℕ × ℕ) :=
  match entry with
  | (key,.extent finish safePhysicalPages auditGeneration) =>
    let start := ofBigEndian key
    if key.length ≠ 8 then .error .corrupt
    else if start < 2 || finish ≤ start || safePhysicalPages < finish || physicalPages < safePhysicalPages ||
        auditGeneration = 0 then .error .corrupt
    else .ok (start,finish,auditGeneration)
  | _ => .error .corrupt

/-- The scan state: pages so far, end of the last extent, generation of the audit. -/
structure FreeScan where
  free : List ℕ
  (previousEnd auditGeneration : ℕ)

def scanExtent (physicalPages rootGeneration : ℕ) (scan : FreeScan) (entry : Bytes × Value) : Except StorageError FreeScan := do
  let (start,finish,generation) ← decodeFreeSpaceExtent physicalPages entry
  if scan.previousEnd ≠ 0 && start ≤ scan.previousEnd then .error .corrupt
  else if scan.auditGeneration ≠ 0 && generation ≠ scan.auditGeneration then .error .corrupt
  else if generation ≠ rootGeneration then .error .corrupt
  else .ok ⟨scan.free ++ List.range' start (finish - start),finish,generation⟩
def pageReusedAfterGeneration (auditGeneration pageID : ℕ) : Bool :=
  match pages pageID with
  | none => false
  | some page => auditGeneration < page.generation

/-- Cuts off the reused candidates, from the greatest one down to the first that is not. -/
def untouchedCandidates (auditGeneration : ℕ) (free : List ℕ) : List ℕ :=
  (free.reverse.dropWhile (pageReusedAfterGeneration pages auditGeneration)).reverse
def freeCandidates (root : DatabaseRoot) (m : Meta) : Except StorageError FreeScan :=
  match pages root.freeSpaceRoot with
  | none => .error .corrupt
  | some rootPage => do
    let entries ← scanTree pages .freeSpace root.freeSpaceRoot
    let scan ← entries.foldlM (scanExtent m.physicalPageCount rootPage.generation) ⟨[],0,0⟩
    if entries = [] || m.generation < scan.auditGeneration then .error .corrupt else .ok scan
def restoreFreeSpace (nextPage : ℕ) (root : DatabaseRoot) (m : Meta) : Except StorageError (List ℕ) :=
  if root.freeSpaceRoot = 0 then .ok []
  else do
    let walker ← Walker.tree pages (fun _ _ => true) (nextPage+1) .freeSpace root.freeSpaceRoot Walker.new
    let scan ← freeCandidates pages root m
    let free := if scan.auditGeneration < m.generation then untouchedCandidates pages scan.auditGeneration scan.free
      else scan.free
    if walker.visited.any (fun e => e.1 ∈ free) then .error .corrupt
    else if m.rootPage ∈ free then .error .corrupt
    else .ok free

/-! ### Opening -/

/-- Reusable pages after opening, and whether they are tracked; a tree that cannot be
restored is given up. -/
def openFreeSpace (state : ExistingFile) : List ℕ × Bool :=
  if state.selected.optionalFeatures &&& optionalFeaturePersistentFreeSpace = 0 then ([],false)
  else match restoreFreeSpace pages state.nextPage state.root state.selected with
    | .ok free => (free,true)
    | .error _ => ([],false)

/-- `OpenWithOptions` on an existing file. -/
def openFile (maxPhysicalPages : ℕ) : Except StorageError File := do
  let state ← inspectExistingFile disk
  let pages := inFile state.nextPage disk.pages
  let retainedCommitBytes ← calculateRetainedCommitBytes pages state.root.commitLogRoot
  let (freePages,tracked) := openFreeSpace pages state
  .ok {
    device := ⟨disk,[]⟩
    opened := true
    current := state.selected
    root := state.root
    metaSlot := state.metaSlot
    metas := state.metas
    metaOK := state.metaOK
    nextPage := state.nextPage
    fatalErr := none
    nextPin := 0
    readers := ∅
    cache := PageCache.newPageCache defaultCachedPages
    freePages := freePages
    freePoolVersion := if tracked then 1 else 0
    freeSpaceTracked := tracked
    freeSpaceNeedsRebuild := false
    retainedCommitBytes := retainedCommitBytes
    maxPhysicalPages := maxPhysicalPages }
def createFile (databaseID : {id : Logical.Identifier // id.isZero = false}) (maxPhysicalPages : ℕ) : File :=
  let m : Meta := ⟨databaseID.val,1,0,0,2,0,0,0⟩
  { device := ⟨⟨fun slot => if slot = 0 then some m else none,fun _ => none,2⟩,[]⟩
    opened := true
    current := m
    root := DatabaseRoot.empty
    metaSlot := 0
    metas := fun slot => if slot = 0 then some m else none
    metaOK := fun slot => slot = 0
    nextPage := 2
    fatalErr := none
    nextPin := 0
    readers := ∅
    cache := PageCache.newPageCache defaultCachedPages
    freePages := []
    freePoolVersion := 0
    freeSpaceTracked := false
    freeSpaceNeedsRebuild := false
    retainedCommitBytes := 0
    maxPhysicalPages := maxPhysicalPages }

end Meldbase.Physical
