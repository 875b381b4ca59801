import Meldbase.Logical.Records
import Meldbase.Storage.TreeNode

/-! # Pages and Meta records

What the pages of a file hold.  A checksum-valid page is given by its decoded
content: a database root, a tree node or one page of an overflow chain.  Trees
name each other by root page, and page 0 is the absent tree.
-/
namespace Meldbase.Physical
open Storage (TreeKind Page PageRef TreeNode TreeCodec)
open Logical (Identifier IndexField IndexBuildPhase IndexBuildFailure maxUint64 allZero)

/-! ### The roots -/

structure DatabaseRoot where
  (commitSequence catalogRoot commitLogRoot freeSpaceRoot oldestRetainedSequence catalogGeneration : ℕ)
  (documentCount collectionCount indexBuildCatalogRoot : ℕ)
  deriving DecidableEq, Repr

def DatabaseRoot.empty : DatabaseRoot := ⟨0,0,0,0,0,0,0,0,0⟩
abbrev Features := BitVec 64
def requiredFeatureShadowIndexBuilds : Features := 1#64 <<< 0
def requiredFeatureCompoundIndexes : Features := 1#64 <<< 1
def requiredFeatureIndexBuildAppliedRoot : Features := 1#64 <<< 2
def supportedRequiredFeatures : Features :=
  requiredFeatureShadowIndexBuilds ||| requiredFeatureCompoundIndexes ||| requiredFeatureIndexBuildAppliedRoot
def optionalFeaturePersistentFreeSpace : Features := 1#64 <<< 0

structure Meta where
  databaseID : Identifier
  (generation commitSequence rootPage physicalPageCount oldestRetainedSequence : ℕ)
  (requiredFeatures optionalFeatures : Features)
  deriving DecidableEq

def validMeta (m : Meta) : Bool :=
  if m.databaseID.isZero || m.generation = 0 || m.physicalPageCount < 2 || m.commitSequence < m.oldestRetainedSequence then
    false
  else if m.rootPage = 0 then m.commitSequence = 0
  else 2 ≤ m.rootPage && m.rootPage < m.physicalPageCount && 0 < m.commitSequence
def encodeMeta (m : Meta) : Except StorageError Meta :=
  if m.requiredFeatures &&& ~~~supportedRequiredFeatures ≠ 0 then .error .unsupportedFeature
  else if !validMeta m then .error .corrupt
  else .ok m
def decodeMeta : Option Meta → Except StorageError Meta
  | none => .error .corrupt
  | some m => encodeMeta m

/-! ### Tree values -/

structure CollectionRecord where
  (id primaryRoot indexCatalogRoot documentCount createdSequence updatedSequence nextDocumentPosition orderRoot : ℕ)
  deriving DecidableEq, Repr

structure IndexRecord where
  fields : List IndexField
  unique : Bool
  (root entryCount createdSequence updatedSequence keyCodecVersion : ℕ)
  deriving DecidableEq

structure IndexBuildRecord where
  collectionID : ℕ
  (collection name : Bytes)
  fields : List IndexField
  (unique replaceExisting : Bool)
  phase : IndexBuildPhase
  failure : IndexBuildFailure
  (sourceSequence sourceCatalogRoot appliedCatalogRoot shadowRoot : ℕ)
  scanAfter : Identifier
  (appliedSequence entryCount canonicalBytes createdAt updatedAt : ℕ)
  deriving DecidableEq

/-- The values of tree leaves.  Documents, commit records and system records stand
behind a descriptor: the tag 0 and the bytes, or the tag 1, the length, the first
overflow page and the SHA-256 of the bytes. -/
inductive Value where
  | collection (m : CollectionRecord)
  | directory (root count : ℕ)
  | index (m : IndexRecord)
  | document (position : ℕ) (descriptor : Bytes)
  | order (id : Identifier)
  | entry (b : Bytes)
  | commit (descriptor : Bytes)
  | system (descriptor : Bytes)
  | build (m : IndexBuildRecord)
  | extent (finish safePhysicalPages auditGeneration : ℕ)
  deriving DecidableEq

def Value.length : Value → ℕ
  | .collection _ => 72
  | .directory _ _ => 32
  | .index m => 64+Logical.indexPayloadBytes m.keyCodecVersion m.fields
  | .document _ descriptor => 24+descriptor.length
  | .order _ => 16
  | .entry b => b.length
  | .commit descriptor => descriptor.length
  | .system descriptor => descriptor.length
  | .build m =>
    128+m.collection.length+m.name.length +
      Logical.indexPayloadBytes (if Logical.compoundIndexFields m.fields then Logical.indexKeyCodecV3 else Logical.indexKeyCodec)
        m.fields
  | .extent _ _ _ => 32

/-! ### Pages -/

inductive OverflowKind where
  | document | commit | system
  deriving DecidableEq, Repr

inductive PageBody where
  | databaseRoot (root : DatabaseRoot)
  | node (kind : TreeKind) (node : TreeNode Bytes Value PageRef)
  | overflow (kind : OverflowKind) (payload : Bytes) (link : ℕ)
  deriving DecidableEq

inductive PageType where
  | databaseRoot
  | tree (kind : TreeKind) (leaf : Bool)
  | overflow (kind : OverflowKind)
  deriving DecidableEq, Repr

def PageBody.type : PageBody → PageType
  | .databaseRoot _ => .databaseRoot
  | .node kind (.leaf _ _) => .tree kind true
  | .node kind (.branch _ _ _) => .tree kind false
  | .overflow kind _ _ => .overflow kind
abbrev DataPage := Page PageBody
def pageCodec : TreeCodec PageBody Bytes Value where
  keyLen := List.length
  valueLen := Value.length
  encode := .node
  decode
    | .node kind node => if node.decodable List.length then some (kind,node) else none
    | _ => none
  decode_encode _ _ h := if_pos h
def encodeDatabaseRoot (pageID generation : ℕ) (root : DatabaseRoot) : Except StorageError DataPage :=
  if root.commitSequence < root.oldestRetainedSequence || (root.commitSequence = 0 &&
      (root.catalogRoot ≠ 0 || root.commitLogRoot ≠ 0 || root.freeSpaceRoot ≠ 0 || root.indexBuildCatalogRoot ≠ 0)) then
    .error .corrupt
  else if pageID < 2 || generation = 0 then .error .corrupt
  else .ok ⟨generation,root.commitSequence,.databaseRoot root⟩
def decodeDatabaseRoot : Option DataPage → Except StorageError DatabaseRoot
  | some ⟨_,bornSequence,.databaseRoot root⟩ =>
    if root.commitSequence ≠ bornSequence || root.commitSequence < root.oldestRetainedSequence then .error .corrupt
    else .ok root
  | _ => .error .corrupt

theorem encodeMeta_ok (h : encodeMeta m = .ok stored) :
    stored = m ∧ validMeta m = true ∧ m.requiredFeatures &&& ~~~supportedRequiredFeatures = 0 := by
  unfold encodeMeta at h
  split_ifs at h with hfeatures hvalid
  cases h
  exact ⟨rfl,by simpa using hvalid,not_not.mp hfeatures⟩

theorem encodeDatabaseRoot_ok (h : encodeDatabaseRoot pageID generation root = .ok page) :
    page = ⟨generation,root.commitSequence,.databaseRoot root⟩ ∧ root.oldestRetainedSequence ≤ root.commitSequence ∧
      2 ≤ pageID := by
  unfold encodeDatabaseRoot at h
  split_ifs at h with hroots hid
  cases h
  simp only [Bool.or_eq_true,decide_eq_true_eq,not_or,not_lt] at hroots hid
  exact ⟨rfl,hroots.1,hid.1⟩

end Meldbase.Physical
