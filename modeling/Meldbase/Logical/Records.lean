import Mathlib.Data.Prod.Lex
import Meldbase.Library.Outcome
import Meldbase.Library.SortedMap
import Meldbase.Storage.Format

/-! # Stored records

The records of the storage layer with every tree root replaced by the tree's
contents.  A published tree is immutable, so its root page and its entries name
the same thing; the page level proves that a tree holds exactly the sorted map
its puts and deletes build.  Root page 0 is the absent tree.

Integers of the format are naturals; the places where the code tests for 32-bit
or 64-bit overflow test for it here.  SHA-256 is a parameter.
-/
namespace Meldbase.Logical

def maxUint16 : ℕ := 2 ^ 16 - 1
def maxUint32 : ℕ := 2 ^ 32 - 1
def maxUint64 : ℕ := 2 ^ 64 - 1
def formatVersion : ℕ := 3
abbrev Identifier := {b : Bytes // b.length = 16}

instance identifierLawful : LawfulBEq Identifier := inferInstance

def Identifier.filled (n : Byte) : Identifier := ⟨List.replicate 16 n,rfl⟩
def Identifier.ending (n : Byte) : Identifier := ⟨List.replicate 15 0 ++ [n],rfl⟩
def zeroIdentifier : Identifier := .filled 0
def allZero (b : Bytes) : Bool := b.all (· = 0)
def Identifier.isZero (id : Identifier) : Bool := allZero id.val

/-- `none` is the zero digest. -/
abbrev Digest := Option Bytes
class Sha256 where
  sum : Bytes → Digest
def sha256 [Sha256] (b : Bytes) : Digest := Sha256.sum b
/-- No two values have one digest. -/
class CollisionFree [Sha256] : Prop where
  injective : Function.Injective sha256

namespace OwnDigest

/-- A value as its own digest. -/
scoped instance sha256Own : Sha256 := ⟨some⟩
scoped instance collisionFreeOwn : CollisionFree := ⟨Option.some_injective _⟩

end OwnDigest

/-! ### Trees -/

abbrev Root (K V : Type) [LinearOrder K] := Option (SortedMap K V)
def openTree {K V : Type} [LinearOrder K] (root : Root K V) : SortedMap K V := root.getD ∅

@[simp] theorem openTree_some {K V : Type} [LinearOrder K] (m : SortedMap K V) : openTree (some m) = m := rfl

@[simp] theorem openTree_none {K V : Type} [LinearOrder K] : openTree (none : Root K V) = ∅ := rfl

/-! ### Documents and collections -/

structure DocumentRecord where
  position : ℕ
  document : Bytes
  deriving DecidableEq

abbrev PrimaryTree := SortedMap Identifier DocumentRecord
abbrev OrderTree := SortedMap ℕ Identifier

/-- Keys are `secondaryKey` bytes; every stored value is the single byte 0. -/
abbrev SecondaryTree := SortedMap Bytes Bytes

structure IndexField where
  path : Bytes
  direction : ℤ
  deriving DecidableEq

structure IndexMeta where
  (name fieldPath : Bytes)
  fields : List IndexField
  unique : Bool
  root : Root Bytes Bytes
  (entryCount createdSequence updatedSequence keyCodecVersion : ℕ)
  deriving DecidableEq

structure CollectionMeta where
  id : ℕ
  primaryRoot : Root Identifier DocumentRecord
  orderRoot : Root ℕ Identifier
  indexCatalogRoot : Root Bytes IndexMeta
  (documentCount createdSequence updatedSequence nextDocumentPosition : ℕ)
  deriving DecidableEq

structure SystemDirectory where
  root : Root Bytes Bytes
  count : ℕ
  deriving DecidableEq

/-- The catalog tree: collection records under their names, and the system
directory under the one key that is no collection name. -/
structure Catalog where
  collections : SortedMap Bytes CollectionMeta
  system : Option SystemDirectory
  deriving DecidableEq

def Catalog.empty : Catalog := ⟨∅,none⟩
def openCatalog (root : Option Catalog) : Catalog := root.getD Catalog.empty

@[simp] theorem openCatalog_some (c : Catalog) : openCatalog (some c) = c := rfl

/-! ### Commits -/

inductive CommitOperation where
  | insert | update | delete | catalog
  deriving DecidableEq, Repr

inductive ChangeImage where
  | none
  | collection (m : CollectionMeta)
  | index (m : IndexMeta)
  | directory (d : SystemDirectory)
  | retention (keepFrom : ℕ)
  deriving DecidableEq

structure DocumentVersionRef where
  primaryRoot : Root Identifier DocumentRecord
  documentID : Identifier
  deriving DecidableEq

structure CommitChange where
  collectionID : ℕ
  collectionName : Bytes
  documentID : Identifier
  operation : CommitOperation
  changedPaths : List Bytes
  (before after : ChangeImage)
  (beforeRef afterRef : Option DocumentVersionRef)
  deriving DecidableEq

structure CommitBatch where
  sequence : ℕ
  transactionID : Identifier
  committedAt : ℕ
  catalogRoot : Option Catalog
  changes : List CommitChange
  deriving DecidableEq

/-- The stored batch header.  `digest` covers the encoded changes. -/
structure CommitHeader where
  sequence : ℕ
  transactionID : Identifier
  (committedAt count : ℕ)
  catalogRoot : Option Catalog
  digest : List CommitChange
  deriving DecidableEq

inductive CommitValue where
  | header (h : CommitHeader)
  | change (c : CommitChange)

abbrev CommitKey := ℕ ×ₗ ℕ
def commitKey (sequence ordinal : ℕ) : CommitKey := toLex (sequence,ordinal)

theorem commitKey_inj : commitKey q o = commitKey q' o' ↔ q = q' ∧ o = o' := by
  unfold commitKey
  rw [toLex_inj,Prod.mk.injEq]

abbrev CommitTree := SortedMap CommitKey CommitValue

/-! ### Index builds -/

inductive IndexBuildPhase where
  | scan | catchUp | ready | failed
  deriving DecidableEq, Repr

inductive IndexBuildFailure where
  | none | uniqueConflict | resourceLimit | historyLost | canceled | invalidIndex
  deriving DecidableEq, Repr

structure IndexBuildMeta where
  buildID : Identifier
  collectionID : ℕ
  (collection name fieldPath : Bytes)
  fields : List IndexField
  (unique replaceExisting : Bool)
  phase : IndexBuildPhase
  failure : IndexBuildFailure
  sourceSequence : ℕ
  (sourceCatalogRoot appliedCatalogRoot : Option Catalog)
  shadowRoot : Root Bytes Bytes
  scanAfter : Identifier
  (appliedSequence entryCount canonicalBytes createdAt updatedAt : ℕ)
  deriving DecidableEq

/-! ### The database root and the open file -/

structure DatabaseRoot where
  commitSequence : ℕ
  catalogRoot : Option Catalog
  commitLogRoot : Root CommitKey CommitValue
  (oldestRetainedSequence catalogGeneration documentCount collectionCount : ℕ)
  indexBuildCatalogRoot : Root Identifier IndexBuildMeta

def DatabaseRoot.empty : DatabaseRoot := ⟨0,none,none,0,0,0,0,none⟩

structure RequiredFeatures where
  (shadowIndexBuilds compoundIndexes indexBuildAppliedRoot : Bool)
  deriving DecidableEq

structure ReaderPin where
  sequence : ℕ
  replay : Bool
  deriving DecidableEq

structure File where
  root : DatabaseRoot
  requiredFeatures : RequiredFeatures
  readers : SortedMap ℕ ReaderPin
  (nextPin commitRetentionMax commitRetentionMaxBytes retainedCommitBytes : ℕ)

structure WriteTxn where
  file : File
  baseRoot : DatabaseRoot
  (sequence retainedCommitBytes : ℕ)
  retentionEvaluated : Bool
  requiredFeatures : RequiredFeatures
  indexBuildCatalogChanged : Bool

/-! ### Names and field paths -/

def isLetter (b : Byte) : Bool := (65 ≤ b.val && b.val ≤ 90) || (97 ≤ b.val && b.val ≤ 122)
def isNameByte (b : Byte) : Bool := isLetter b || (48 ≤ b.val && b.val ≤ 57) || b.val == 95 || b.val == 45
def validCollectionName : Bytes → Bool
  | [] => false
  | first::rest => rest.length+1 ≤ 128 && isLetter first && rest.all isNameByte
def validIndexName (name : Bytes) : Bool := validCollectionName name
def isContinuation (b : Byte) : Bool := 128 ≤ b.val && b.val ≤ 191

/-- `utf8.Valid`: shortest forms only, no surrogates, nothing past U+10FFFF. -/
def utf8Valid : Bytes → Bool
  | [] => true
  | a::rest =>
    if a.val < 128 then utf8Valid rest
    else match rest with
      | [] => false
      | b::rest =>
        if 194 ≤ a.val && a.val ≤ 223 then isContinuation b && utf8Valid rest
        else match rest with
          | [] => false
          | c::rest =>
            if 224 ≤ a.val && a.val ≤ 239 then
              isContinuation b && isContinuation c && (a.val != 224 || 160 ≤ b.val) &&
                (a.val != 237 || b.val ≤ 159) && utf8Valid rest
            else match rest with
              | [] => false
              | d::rest =>
                240 ≤ a.val && a.val ≤ 244 && isContinuation b && isContinuation c && isContinuation d &&
                  (a.val != 240 || 144 ≤ b.val) && (a.val != 244 || b.val ≤ 143) && utf8Valid rest
def maxIndexFields : ℕ := 4
def maxIndexFieldBytes : ℕ := 1024
def validIndexFieldPath (path : Bytes) : Bool :=
  path.length ≠ 0 && path.length ≤ maxIndexFieldBytes && utf8Valid path && path.all (· ≠ 0)
def normalizeIndexFields (fieldPath : Bytes) (fields : List IndexField) : Option (List IndexField) :=
  match fields with
  | [] => if validIndexFieldPath fieldPath then some [⟨fieldPath,1⟩] else none
  | first::_ =>
    if fields.length > maxIndexFields || (fieldPath ≠ [] && fieldPath ≠ first.path) then none
    else if fields.all (fun f => validIndexFieldPath f.path && (f.direction = 1 || f.direction = -1)) &&
        (fields.map IndexField.path).Nodup then some fields
    else none
def compoundIndexFields (fields : List IndexField) : Bool :=
  match fields with
  | [f] => f.direction ≠ 1
  | _ => true

/-! ### Catalog record codecs

A codec is modelled by what survives it: encoding checks the record and returns
the form that decoding gives back. -/

def validCollectionMeta (m : CollectionMeta) : Bool :=
  m.id ≠ 0 && m.primaryRoot.isSome && m.orderRoot.isSome && m.createdSequence ≠ 0 &&
    m.createdSequence ≤ m.updatedSequence && m.documentCount ≤ m.nextDocumentPosition
def encodeCollectionMeta (m : CollectionMeta) : Except StorageError CollectionMeta :=
  if validCollectionMeta m then .ok m else .error .corrupt
def indexKeyCodec : ℕ := 2
def indexKeyCodecV3 : ℕ := 3
def indexPayloadBytes (codec : ℕ) (fields : List IndexField) : ℕ :=
  if codec = indexKeyCodec then (fields.head?.map (fun f => f.path.length)).getD 0
  else (fields.map (fun f => 3+f.path.length)).sum
def encodeIndexMeta (m : IndexMeta) : Except StorageError IndexMeta :=
  match normalizeIndexFields m.fieldPath m.fields with
  | none => .error .corrupt
  | some fields =>
    if !validIndexName m.name || m.root.isNone || m.createdSequence = 0 || m.updatedSequence < m.createdSequence then
      .error .corrupt
    else
      let codec := if m.keyCodecVersion = 0 then
        (if compoundIndexFields fields then indexKeyCodecV3 else indexKeyCodec) else m.keyCodecVersion
      if (codec = indexKeyCodec && compoundIndexFields fields) || (codec ≠ indexKeyCodec && codec ≠ indexKeyCodecV3) then
        .error .corrupt
      else if indexPayloadBytes codec fields = 0 || indexPayloadBytes codec fields > maxUint16 then .error .corrupt
      else .ok { m with
        fieldPath := (fields.head?.map IndexField.path).getD []
        fields := fields
        keyCodecVersion := codec }
def ChangeImage.length : ChangeImage → ℕ
  | .none => 0
  | .collection _ => 72
  | .index m => 64+indexPayloadBytes m.keyCodecVersion m.fields
  | .directory _ => 32
  | .retention _ => 8

/-! ### Updates -/

def File.beginUpdate (f : File) (advance : ℕ) : WriteTxn where
  file := f
  baseRoot := f.root
  sequence := f.root.commitSequence+advance
  retainedCommitBytes := f.retainedCommitBytes
  retentionEvaluated := false
  requiredFeatures := f.requiredFeatures
  indexBuildCatalogChanged := false

variable (tx : WriteTxn) (root : DatabaseRoot)

/-- The root an update publishes: builds change only where the callback says so. -/
def WriteTxn.finalRoot : DatabaseRoot :=
  if tx.indexBuildCatalogChanged then root
  else { root with indexBuildCatalogRoot := tx.baseRoot.indexBuildCatalogRoot }

/-- The memory state after the Meta page is durable. -/
def File.publish (f : File) (tx : WriteTxn) (root : DatabaseRoot) : File := { f with
  root := root
  requiredFeatures := tx.requiredFeatures
  retainedCommitBytes := if tx.retentionEvaluated then tx.retainedCommitBytes else f.retainedCommitBytes }

/-- `updateUnlockedAdvance` without its page writes: the callback builds a root,
which replaces the current one if its sequence is the expected one. -/
def File.updateAdvance (f : File) (advance : ℕ)
    (build : WriteTxn → Except StorageError (WriteTxn × DatabaseRoot)) : Except StorageError File :=
  let sequence := f.root.commitSequence+advance
  if maxUint64 < sequence then .error .corrupt
  else do
    let (tx,root) ← build (f.beginUpdate advance)
    let root := tx.finalRoot root
    if root.commitSequence ≠ sequence || sequence < root.oldestRetainedSequence ||
        (root.indexBuildCatalogRoot.isSome && !tx.requiredFeatures.shadowIndexBuilds) then .error .corrupt
    -- `EncodeMeta` accepts no root page at the logical sequence zero
    else if sequence = 0 then .error .corrupt
    else .ok (f.publish tx root)

structure Updated (f : File) (advance : ℕ) (tx : WriteTxn) (root : DatabaseRoot) (f' : File) : Prop where
  file : f' = f.publish tx (tx.finalRoot root)
  sequence : root.commitSequence = f.root.commitSequence+advance
  sequence_pos : 0 < f.root.commitSequence+advance
  sequence_le : f.root.commitSequence+advance ≤ maxUint64
  oldest_le : root.oldestRetainedSequence ≤ f.root.commitSequence+advance

@[simp] theorem WriteTxn.finalRoot_commitSequence :
    (tx.finalRoot root).commitSequence = root.commitSequence := by
  unfold WriteTxn.finalRoot
  split_ifs <;> rfl

@[simp] theorem WriteTxn.finalRoot_oldestRetainedSequence :
    (tx.finalRoot root).oldestRetainedSequence = root.oldestRetainedSequence := by
  unfold WriteTxn.finalRoot
  split_ifs <;> rfl

@[simp] theorem WriteTxn.finalRoot_commitLogRoot :
    (tx.finalRoot root).commitLogRoot = root.commitLogRoot := by
  unfold WriteTxn.finalRoot
  split_ifs <;> rfl

@[simp] theorem WriteTxn.finalRoot_catalogRoot : (tx.finalRoot root).catalogRoot = root.catalogRoot := by
  unfold WriteTxn.finalRoot
  split_ifs <;> rfl

theorem updateAdvance_ok {build : WriteTxn → Except StorageError (WriteTxn × DatabaseRoot)}
    (h : f.updateAdvance advance build = .ok f') :
    ∃ tx root, build (f.beginUpdate advance) = .ok (tx,root) ∧ Updated f advance tx root f' := by
  unfold File.updateAdvance at h
  dsimp only at h
  by_cases hmax : maxUint64 < f.root.commitSequence+advance
  · rw [if_pos hmax] at h
    cases h
  rw [if_neg hmax] at h
  obtain ⟨⟨tx,root⟩,hbuild,h⟩ := Outcome.bind_eq_ok.mp h
  dsimp only at h
  split_ifs at h with hguard hzero
  cases h
  simp only [WriteTxn.finalRoot_commitSequence,WriteTxn.finalRoot_oldestRetainedSequence,Bool.or_eq_true,
    decide_eq_true_eq,not_or,not_not,not_lt] at hguard
  exact ⟨tx,root,hbuild,rfl,hguard.1.1,by omega,by omega,hguard.1.2⟩

end Meldbase.Logical
