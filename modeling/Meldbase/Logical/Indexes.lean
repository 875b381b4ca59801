import Meldbase.Logical.CommitLog

/-! # Secondary indexes

Composite keys `key ‖ position ‖ id`, the staged index changes of a document
transaction, and index creation from supplied entries.
-/
namespace Meldbase.Logical
open FixedWidth

def maxSecondaryScalarKeyBytes : ℕ := 4096 - 24

/-! ### Composite keys -/

def compositeKey (key : Bytes) (position : ℕ) (id : Identifier) : Bytes := key ++ (bigEndian 8 position ++ id.val)
def secondaryKey (key : Bytes) (position : ℕ) (id : Identifier) : Except StorageError Bytes :=
  if maxSecondaryScalarKeyBytes < key.length then .error .indexKeyTooLarge
  else if key = [] || position = 0 || id.isZero then .error .corrupt
  else .ok (compositeKey key position id)
def secondaryKeyParts (encoded : Bytes) : Except StorageError (Bytes × ℕ × Identifier) :=
  if h : encoded.length ≤ 24 ∨ 4096 < encoded.length then .error .corrupt
  else
    let offset := encoded.length - 24
    let position := ofBigEndian ((encoded.drop offset).take 8)
    let id : Identifier := ⟨encoded.drop (offset+8),by rw [List.length_drop]; omega⟩
    if position = 0 || id.isZero then .error .corrupt else .ok (encoded.take offset,position,id)
def lexicographicPrefixEnd (scalar : Bytes) : Option Bytes :=
  match scalar.reverse.dropWhile (· = 255) with
  | [] => none
  | b::rest => some ((b+1) :: rest).reverse
def uniqueIndexConflict (tree : SecondaryTree) (scalarKey : Bytes) : Except StorageError Bool :=
  match Entries.range tree.entries (some (scalarKey ++ List.replicate 24 0)) (lexicographicPrefixEnd scalarKey) with
  | [] => .ok false
  | (encoded,_) :: _ => do
    let (key,_,_) ← secondaryKeyParts encoded
    .ok (key = scalarKey)

/-! ### Staged index changes -/

structure IndexMutation where
  (name beforeKey afterKey : Bytes)

structure IndexWriteState where
  definition : IndexMeta
  tree : SecondaryTree
  changed : Bool

structure CollectionWriteState where
  header : CollectionMeta
  originalRoot : Root Identifier DocumentRecord
  tree : PrimaryTree
  order : OrderTree
  indexCatalog : SortedMap Bytes IndexMeta
  indexes : SortedMap Bytes IndexWriteState
  created : Bool

abbrev WriteStates := SortedMap Bytes CollectionWriteState

structure PendingIndexMutation where
  (collection index : Bytes)
  documentID : Identifier
  position : ℕ
  (beforeKey afterKey : Bytes)

def checkIndexMutation (operation : CommitOperation) (seen : List Bytes) (item : IndexMutation) :
    Except StorageError (List Bytes) :=
  if !validIndexName item.name then .error .corrupt
  else if maxSecondaryScalarKeyBytes < item.beforeKey.length || maxSecondaryScalarKeyBytes < item.afterKey.length then
    .error .indexKeyTooLarge
  else if item.name ∈ seen then .error .corrupt
  else if operation = .insert && item.beforeKey ≠ [] then .error .corrupt
  else if operation = .delete && item.afterKey ≠ [] then .error .corrupt
  else .ok (item.name::seen)
def prepareIndexMutations (collection : Bytes) (state : CollectionWriteState) (operation : CommitOperation)
    (documentID : Identifier) (items : List IndexMutation) (position : ℕ) :
    Except StorageError (List PendingIndexMutation) :=
  if position = 0 || items.length ≠ state.indexes.size then .error .corrupt
  else do
    let _ ← items.foldlM (checkIndexMutation operation) []
    (state.indexes.entries.map Prod.fst).mapM (fun name =>
      match items.find? (fun item => item.name = name) with
      | none => .error .corrupt
      | some item => .ok ⟨collection,name,documentID,position,item.beforeKey,item.afterKey⟩)

variable (states : WriteStates)

def lookupIndex (collection index : Bytes) : Option IndexWriteState :=
  (states.find collection).bind (fun state => state.indexes.find index)
def updateIndex (collection index : Bytes) (st : IndexWriteState) : WriteStates :=
  match states.find collection with
  | none => states
  | some state => states.insert collection { state with indexes := state.indexes.insert index st }

variable (st : IndexWriteState) (m : PendingIndexMutation)

/-- First pass: an unchanged key must be present, a changed one is removed. -/
def removeEntry : Except StorageError IndexWriteState :=
  if m.beforeKey = [] then .ok st
  else do
    let key ← secondaryKey m.beforeKey m.position m.documentID
    if (st.tree.find key).isNone then .error .corrupt
    else if m.beforeKey = m.afterKey then .ok st
    else if st.definition.entryCount = 0 then .error .corrupt
    else .ok {
      definition := { st.definition with entryCount := st.definition.entryCount - 1 }
      tree := st.tree.erase key
      changed := true }
def addEntry : Except StorageError IndexWriteState :=
  if m.beforeKey = m.afterKey || m.afterKey = [] then .ok st
  else do
    let key ← secondaryKey m.afterKey m.position m.documentID
    if (st.tree.find key).isSome then .error .duplicateEntry
    else do
      let conflict ← if st.definition.unique then uniqueIndexConflict st.tree m.afterKey else .ok false
      if conflict then .error .uniqueConflict
      else .ok {
        definition := { st.definition with entryCount := st.definition.entryCount+1 }
        tree := st.tree.insert key [0]
        changed := true }
def indexStep (edit : IndexWriteState → PendingIndexMutation → Except StorageError IndexWriteState)
    (states : WriteStates) (m : PendingIndexMutation) : Except StorageError WriteStates :=
  match lookupIndex states m.collection m.index with
  | none => .error .corrupt
  | some st => do
    let st ← edit st m
    .ok (updateIndex states m.collection m.index st)

/-- All removals come before the first insertion, so one batch can swap unique values. -/
def applyIndexMutations (pending : List PendingIndexMutation) : Except StorageError WriteStates := do
  let states ← pending.foldlM (indexStep removeEntry) states
  pending.foldlM (indexStep addEntry) states

/-! ### Index creation -/

structure IndexEntry where
  key : Bytes
  insertionPosition : ℕ
  documentID : Identifier
  deriving DecidableEq

structure CreateIndexTransaction where
  transactionID : Identifier
  committedAt : ℕ
  (collection name fieldPath : Bytes)
  fields : List IndexField
  (unique replaceExisting : Bool)
  entries : List IndexEntry

def checkIndexEntry (seen : List Identifier) (entry : IndexEntry) : Except StorageError (List Identifier) :=
  if maxSecondaryScalarKeyBytes < entry.key.length then .error .indexKeyTooLarge
  else if entry.key = [] || entry.documentID.isZero then .error .corrupt
  else if entry.documentID ∈ seen then .error .multipleEntries
  else .ok (entry.documentID::seen)
def entryLE (a b : IndexEntry) : Prop := a.key < b.key ∨ (a.key = b.key ∧ a.documentID ≤ b.documentID)

instance : DecidableRel entryLE := fun a b => by unfold entryLE; infer_instance

def positionLE (a b : IndexEntry) : Prop :=
  a.key < b.key ∨ (a.key = b.key ∧ (a.insertionPosition < b.insertionPosition ∨
    (a.insertionPosition = b.insertionPosition ∧ a.documentID ≤ b.documentID)))

instance : DecidableRel positionLE := fun a b => by unfold positionLE; infer_instance

def checkNeighbours (unique : Bool) : List IndexEntry → Except StorageError Unit
  | a::b::rest =>
    if a.key = b.key && a.documentID = b.documentID then .error .duplicateEntry
    else if a.key = b.key && unique then .error .uniqueConflict
    else checkNeighbours unique (b::rest)
  | _ => .ok ()
def normalizeIndexEntries (entries : List IndexEntry) (unique : Bool) : Except StorageError (List IndexEntry) := do
  let _ ← entries.foldlM checkIndexEntry []
  let entries := entries.insertionSort entryLE
  checkNeighbours unique entries
  .ok entries
def resolveEntry (primary : PrimaryTree) (order : OrderTree) (entry : IndexEntry) : Except StorageError IndexEntry :=
  match primary.find entry.documentID with
  | none => .error .corrupt
  | some record =>
    if entry.insertionPosition ≠ 0 && entry.insertionPosition ≠ record.position then .error .corrupt
    else if order.find record.position ≠ some entry.documentID then .error .corrupt
    else .ok { entry with insertionPosition := record.position }

/-- `SortedTreeBuilder.Add` on each entry: keys must increase. -/
def addSorted (built : Option Bytes × SecondaryTree) (entry : IndexEntry) :
    Except StorageError (Option Bytes × SecondaryTree) := do
  let key ← secondaryKey entry.key entry.insertionPosition entry.documentID
  if built.1.any (key ≤ ·) then .error .corrupt else .ok (some key,built.2.insert key [0])
def buildIndexTree (entries : List IndexEntry) : Except StorageError SecondaryTree := do
  let built ← (entries.insertionSort positionLE).foldlM addSorted (none,∅)
  .ok built.2

end Meldbase.Logical
