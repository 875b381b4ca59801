import Meldbase.Physical.Graph

/-! # The reachability walk

`reachabilityWalker` visits a version depth first and records every page it reads.
Besides following references it checks what it reads: record validity, counts,
features and the audits of collections and builds.  Those checks can only make the
walk fail, so they are left open here.
-/
namespace Meldbase.Physical
open Storage (TreeKind TreeNode PageRef)
open Logical (overflowChunkBytes)
open Outcome

/-- The pages seen so far with their types, and those on the current path. -/
structure Walker where
  visited : List (ℕ × PageType)
  visiting : List ℕ

def Walker.new : Walker := ⟨[],[]⟩

namespace Walker

def typeOf (w : Walker) (pageID : ℕ) : Option PageType :=
  (w.visited.find? (fun e => e.1 = pageID)).map Prod.snd

variable (pages : ℕ → Option DataPage)

/-- `pageEither`: no content comes back for a page that was visited before. -/
def page (accepts : PageType → Bool) (pageID : ℕ) (w : Walker) :
    Except StorageError (Option DataPage × Walker) :=
  match w.typeOf pageID with
  | some type => if accepts type then .ok (none,w) else .error .corrupt
  | none =>
    match pages pageID with
    | none => .error .corrupt
    | some content =>
      if accepts content.body.type then .ok (some content,{ w with visited := (pageID,content.body.type) :: w.visited })
      else .error .corrupt

/-- The page loop of `overflowValue`; a chain that was seen before is loaded again. -/
def chunks (pages : ℕ → Option DataPage) (kind : OverflowKind) (total : ℕ) (reload : Except StorageError Bytes) :
    ℕ → ℕ → ℕ → ℕ → Bytes → Walker → Except StorageError (Bytes × Walker)
  | 0, _, _, _, _, _ => .error .corrupt
  | fuel+1, index, expected, pageID, result, w =>
    if total ≤ result.length then .ok (result,w)
    else do
      let (content,w) ← w.page pages (· = .overflow kind) pageID
      match content with
      | none => do
        let value ← reload
        .ok (value,w)
      | some page => do
        let (chunks,data,link) ← readChunk kind total index expected result.length (some page)
        if index+1 = chunks then .ok (result ++ data,w)
        else Walker.chunks pages kind total reload fuel (index+1) chunks link (result ++ data) w
def reloadKind (kind : OverflowKind) : OverflowKind := if kind = .document then .document else .commit
def overflowValue (kind : OverflowKind) (w : Walker) : Bytes → Except StorageError (Bytes × Walker)
  | [] => .error .corrupt
  | tag::body =>
    if tag = 0 then .ok (body,w)
    else if tag ≠ 1 then .error .corrupt
    else do
      let (total,page,_) ← kind.descriptor body
      let reload := ((chainValue (reloadKind kind) (tag::body)).run pages).map Prod.fst
      w.chunks pages kind total reload (2 ^ 32) 0 0 page []

/-- Follows the references of one leaf entry; `visit` walks a tree. -/
def cell (visit : TreeKind → ℕ → Walker → Except StorageError Walker) (kind : TreeKind)
    (w : Walker) (entry : Bytes × Value) : Except StorageError Walker :=
  match kind, entry.2 with
  | .catalog, .directory root count =>
    match nodeOf .system (pages root) with
    | none => .error .corrupt
    | some node => if node.count ≠ count then .error .corrupt else visit .system root w
  | .catalog, .collection m => do
    let w ← visit .primary m.primaryRoot w
    let w ← visit .order m.orderRoot w
    visit .indexCatalog m.indexCatalogRoot w
  | .indexCatalog, .index m => visit .secondary m.root w
  | .primary, .document _ descriptor => do
    let (_,w) ← w.overflowValue pages .document descriptor
    .ok w
  | .commitLog, .commit descriptor => do
    let (value,w) ← w.overflowValue pages .commit descriptor
    (commitObjects entry.1 value).foldlM (fun w o =>
      match o with
      | .tree kind root => visit kind root w
      | .databaseRoot _ => .error .corrupt) w
  | .system, .system descriptor => do
    let (_,w) ← w.overflowValue pages .system descriptor
    .ok w
  | .indexBuildCatalog, .build m => do
    let w ← visit .catalog m.sourceCatalogRoot w
    let w ← visit .catalog m.appliedCatalogRoot w
    visit .secondary m.shadowRoot w
  | .order, .order _ => .ok w
  | .secondary, .entry _ => .ok w
  | .freeSpace, .extent _ _ _ => .ok w
  | _, _ => .error .corrupt
def isTree (kind : TreeKind) : PageType → Bool
  | .tree pageKind _ => pageKind = kind
  | _ => false

/-- `tree`; `checks` are the content checks on a leaf entry.  The pages on the path
are distinct, so the number of file pages bounds the depth. -/
def tree (pages : ℕ → Option DataPage) (checks : TreeKind → Bytes × Value → Bool) :
    ℕ → TreeKind → ℕ → Walker → Except StorageError Walker
  | 0, _, _, _ => .error .corrupt
  | fuel+1, kind, pageID, w =>
    if pageID = 0 then .ok w
    else if pageID ∈ w.visiting then .error .corrupt
    else do
      let (content,seen) ← w.page pages (isTree kind) pageID
      match content with
      | none => .ok seen
      | some content =>
        match nodeOf kind (some content) with
        | none => .error .corrupt
        | some (.branch _ children _) => do
          let w ← children.foldlM (fun w child => tree pages checks fuel kind child.pageID w)
            { seen with visiting := pageID::seen.visiting }
          .ok { w with visiting := seen.visiting }
        | some (.leaf entries _) => do
          let w ← entries.foldlM (fun w entry =>
              if checks kind entry then cell pages (tree pages checks fuel) kind w entry else .error .corrupt)
            { seen with visiting := pageID::seen.visiting }
          .ok { w with visiting := seen.visiting }
def databaseRoot (pages : ℕ → Option DataPage) (checks : TreeKind → Bytes × Value → Bool) (fuel pageID : ℕ) (w : Walker) :
    Except StorageError Walker := do
  let (content,seen) ← w.page pages (· = .databaseRoot) pageID
  match content with
  | none => .ok seen
  | some content => do
    let root ← decodeDatabaseRoot (some content)
    let w ← tree pages checks fuel .catalog root.catalogRoot { seen with visiting := pageID::seen.visiting }
    let w ← tree pages checks fuel .commitLog root.commitLogRoot w
    let w ← tree pages checks fuel .indexBuildCatalog root.indexBuildCatalogRoot w
    .ok { w with visiting := seen.visiting }

end Walker
end Meldbase.Physical
