import Meldbase.Logical.CommitCodec
import Meldbase.Physical.PageCache

/-! # What a database version consists of

The objects of a version are its root page and its trees.  Reading an object takes
its page and, in the leaves of primary trees, commit logs and system trees, the
overflow chains of its values.  The objects it names are the subtrees of a branch
and the trees that the records of a leaf refer to: the trees of a collection, the
catalog and the document versions that a retained commit refers to, and the
catalogs and the shadow tree of an index build.  Free-space trees are acceleration
data and belong to no version.
-/
namespace Meldbase.Physical
open Storage (TreeKind TreeNode PageRef)
open Logical (inlineCommitValueLimit maxCommitValueBytes maxSystemValueBytes decodeRawChange overflowChunkBytes)
open FixedWidth Framing

/-! ### Overflow chains -/

def maxDocumentBytes : ℕ := 64*1024*1024
def OverflowKind.maximum : OverflowKind → ℕ
  | .document => maxDocumentBytes
  | .commit => maxCommitValueBytes
  | .system => maxSystemValueBytes

variable (kind : OverflowKind)

/-- Length, first page and checksum of a 49-byte descriptor, after its tag. -/
def OverflowKind.descriptor (body : Bytes) : Except StorageError (ℕ × ℕ × Bytes) :=
  match splitFields [8,8,32] body with
  | [total,page,sum] =>
    if body.length ≠ 48 then .error .corrupt
    else if ofLittleEndian total < inlineCommitValueLimit || kind.maximum < ofLittleEndian total ||
        ofLittleEndian page < 2 then .error .corrupt
    else .ok (ofLittleEndian total,ofLittleEndian page,sum)
  | _ => .error .corrupt
def readChunk (total index expected read : ℕ) : Option DataPage → Except StorageError (ℕ × Bytes × ℕ)
  | some ⟨_,_,.overflow pageKind payload link⟩ =>
    match splitFields [8,4,4] payload with
    | [length,ordinal,count] =>
      let chunks := ofLittleEndian count
      let data := payload.drop 16
      if pageKind ≠ kind then .error .corrupt
      else if payload.length < 16 || ofLittleEndian length ≠ total || ofLittleEndian ordinal ≠ index then .error .corrupt
      else if chunks = 0 || (0 < index && chunks ≠ expected) || chunks ≤ index then .error .corrupt
      else if total < read+data.length then .error .corrupt
      else if index+1 = chunks then
        if link ≠ 0 || read+data.length ≠ total then .error .corrupt else .ok (chunks,data,link)
      else if link < 2 then .error .corrupt
      else .ok (chunks,data,link)
    | _ => .error .corrupt
  | _ => .error .corrupt
def loadChunks (kind : OverflowKind) (total : ℕ) :
    ℕ → ℕ → ℕ → List ℕ → ℕ → Bytes → PageReader DataPage (Except StorageError Bytes)
  | 0, _, _, _, _, _ => .done (.error .corrupt)
  | fuel+1, index, expected, seen, pageID, result =>
    if total ≤ result.length then .done (.ok result)
    else if pageID ∈ seen then .done (.error .corrupt)
    else .page pageID (fun content =>
      match readChunk kind total index expected result.length content with
      | .error e => .done (.error e)
      | .ok (chunks,data,link) =>
        if index+1 = chunks then .done (.ok (result ++ data))
        else loadChunks kind total fuel (index+1) chunks (pageID::seen) link (result ++ data))
def chainValue : Bytes → PageReader DataPage (Except StorageError (Bytes × Option Bytes))
  | [] => .done (.error .corrupt)
  | tag::body =>
    if tag = 0 then .done (.ok (body,none))
    else if tag ≠ 1 then .done (.error .corrupt)
    else match kind.descriptor body with
    | .error e => .done (.error e)
    | .ok (total,page,sum) => do
      match ← loadChunks kind total (2 ^ 32) 0 0 [] page [] with
      | .error e => pure (.error e)
      | .ok result => pure (.ok (result,some sum))

/-! ### Objects -/

inductive Object where
  | databaseRoot (page : ℕ)
  | tree (kind : TreeKind) (page : ℕ)
  deriving DecidableEq, Repr

def nodeOf (kind : TreeKind) (content : Option DataPage) : Option (TreeNode Bytes Value PageRef) :=
  match content.bind (fun page => pageCodec.decode page.body) with
  | some (pageKind,node) => if pageKind = kind then some node else none
  | none => none
def commitOrdinal (key : Bytes) : ℕ := ofBigEndian (key.drop 8)
def headerCatalogRoot (header : Bytes) : ℕ := ofLittleEndian ((header.drop 56).take 8)
def commitObjects (key value : Bytes) : List Object :=
  if commitOrdinal key = 0 then [.tree .catalog (headerCatalogRoot value)]
  else match decodeRawChange value with
    | .error _ => []
    | .ok change => (change.beforeRef.toList ++ change.afterRef.toList).map (fun r => .tree .primary r.primaryRoot)

/-- The trees that one entry of a leaf names. -/
def cellObjects (key : Bytes) : Value → PageReader DataPage (List Object)
  | .collection m => pure [.tree .primary m.primaryRoot,.tree .order m.orderRoot,.tree .indexCatalog m.indexCatalogRoot]
  | .directory root _ => pure [.tree .system root]
  | .index m => pure [.tree .secondary m.root]
  | .document _ descriptor => do
    let _ ← chainValue .document descriptor
    pure []
  | .commit descriptor => do
    match ← chainValue .commit descriptor with
    | .error _ => pure []
    | .ok (value,_) => pure (commitObjects key value)
  | .system descriptor => do
    let _ ← chainValue .system descriptor
    pure []
  | .build m =>
    pure [.tree .catalog m.sourceCatalogRoot,.tree .catalog m.appliedCatalogRoot,.tree .secondary m.shadowRoot]
  | .order _ => pure []
  | .entry _ => pure []
  | .extent _ _ _ => pure []
def cellsObjects : List (Bytes × Value) → PageReader DataPage (List Object)
  | [] => pure []
  | (key,value) :: rest => do
    let objects ← cellObjects key value
    let more ← cellsObjects rest
    pure (objects ++ more)
def objects : PageGraph DataPage Object
  | .databaseRoot page => .page page (fun content =>
      match decodeDatabaseRoot content with
      | .error _ => .done []
      | .ok root => .done [.tree .catalog root.catalogRoot,.tree .commitLog root.commitLogRoot,
          .tree .indexBuildCatalog root.indexBuildCatalogRoot])
  | .tree _ 0 => .done []
  | .tree kind (page+1) => .page (page+1) (fun content =>
      match nodeOf kind content with
      | none => .done []
      | some (.branch _ children _) => .done (children.map (fun child => .tree kind child.pageID))
      | some (.leaf entries _) => cellsObjects entries)
def PageBody.WellCut : PageBody → Prop
  | .overflow _ payload link => link ≠ 0 → (payload.drop 16).length = overflowChunkBytes ∧
      (ofLittleEndian ((payload.drop 8).take 4) + 1) * overflowChunkBytes < ofLittleEndian (payload.take 8)
  | _ => True

end Meldbase.Physical
