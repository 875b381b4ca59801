import Meldbase.Storage.TreeSplit

/-! # Editing a stored tree inside a write transaction

`MutableTree` with its copy-on-write operations.  A reference is either the page
it was read from or a node rewritten in memory; a node that was loaded and not
changed reads as its page.  Every descent is bounded by `depth`, which the tree
carries as an upper bound of its height: it is the number of file pages when the
tree is opened and grows with each new root.
-/
namespace Meldbase.Storage
open Outcome
variable {B K V : Type} [LinearOrder K]

/-- A tree under edit; `sort.Search` over a node's keys is `findIdx`. -/
structure MutableTree (K V : Type) where
  kind : TreeKind
  root : NodeRef K V
  depth : ℕ

namespace TreeCodec
variable (c : TreeCodec B K V)
variable (tx : WriteTxn B) (kind : TreeKind)

def reference (pageID : ℕ) : Except StorageError (TreeNode K V (NodeRef K V)) :=
  match tx.readPage pageID with
  | none => .error .corrupt
  | some page =>
    match c.decode page.body with
    | none => .error .corrupt
    | some (pageKind,node) =>
      if pageKind = kind then .ok (node.mapChildren NodeRef.stored) else .error .corrupt
def load : NodeRef K V → Except StorageError (TreeNode K V (NodeRef K V))
  | .loaded node => .ok node
  | .stored page => do
    let node ← c.reference tx kind page.pageID
    if page.count = node.count then .ok node else .error .corrupt

variable (keys : List K)

def childIndex (key : K) : ℕ :=
  let position := keys.findIdx (fun k => key ≤ k)
  if keys[position]? = some key then position+1 else position

/-- Result of editing a subtree: its reference and, after a split, separator and right sibling. -/
abbrev Edited (K V : Type) := NodeRef K V × Option (K × NodeRef K V)
def putEntry (entries : List (K × V)) (count : ℕ) (key : K) (value : V) : List (K × V) × ℕ :=
  let position := entries.findIdx (fun e => key ≤ e.1)
  match entries[position]? with
  | some e => if e.1 = key then (entries.set position (key,value),count)
              else (entries.insertIdx position (key,value),count+1)
  | none => (entries.insertIdx position (key,value),count+1)
def finishLeaf (entries : List (K × V)) (count : ℕ) : Except StorageError (Edited K V) :=
  if c.nodeFits (.leaf entries count : TreeNode K V (NodeRef K V)) then .ok (.loaded (.leaf entries count),none)
  else match c.byteBalancedLeafSplit entries with
    | none => .error .nodeFull
    | some middle =>
      match entries.drop middle with
      | [] => .error .corrupt
      | first::rest =>
        .ok (.loaded (.leaf (entries.take middle) middle),
          some (first.1,.loaded (.leaf (first::rest) (entries.length - middle))))

variable (children : List (NodeRef K V))

def finishBranch (count : ℕ) : Except StorageError (Edited K V) :=
  if c.nodeFits (.branch keys children count : TreeNode K V (NodeRef K V)) then
    .ok (.loaded (.branch keys children count),none)
  else match c.byteBalancedBranchSplit keys children with
    | none => .error .nodeFull
    | some middle =>
      match keys[middle]? with
      | none => .error .corrupt
      | some promoted =>
        let left := children.take (middle+1)
        let right := children.drop (middle+1)
        .ok (.loaded (.branch (keys.take middle) left (left.map NodeRef.count).sum),
          some (promoted,.loaded (.branch (keys.drop (middle+1)) right (right.map NodeRef.count).sum)))
def replaceChild (index : ℕ) : Edited K V → List K × List (NodeRef K V)
  | (left,none) => (keys,children.set index left)
  | (left,some (separator,right)) =>
    (keys.insertIdx index separator,(children.set index left).insertIdx (index+1) right)

/-- Entries below an edited child and its new sibling. -/
def editedCount : Edited K V → ℕ
  | (left,none) => left.count
  | (left,some (_,right)) => left.count+right.count

/-- Update a subtree and report any split its parent must take in. -/
def put (tx : WriteTxn B) (kind : TreeKind) : ℕ → NodeRef K V → K → V → Except StorageError (Edited K V)
  | 0, _, _, _ => .error .corrupt
  | depth+1, ref, key, value => do
    match ← c.load tx kind ref with
    | .leaf entries count =>
      let (entries,count) := putEntry entries count key value
      c.finishLeaf entries count
    | .branch keys children count =>
      let index := childIndex keys key
      match children[index]? with
      | none => .error .corrupt
      | some child =>
        let edited ← put tx kind depth child key value
        let (keys,children) := replaceChild keys children index edited
        c.finishBranch keys children (count+editedCount edited - child.count)
def minimumKey (tx : WriteTxn B) (kind : TreeKind) : ℕ → NodeRef K V → Except StorageError K
  | 0, _ => .error .corrupt
  | depth+1, ref => do
    match ← c.load tx kind ref with
    | .leaf [] _ => .error .corrupt
    | .leaf (e::_) _ => .ok e.1
    | .branch _ [] _ => .error .corrupt
    | .branch _ (child::_) _ => minimumKey tx kind depth child
def mergeNodes (separator : K) : TreeNode K V (NodeRef K V) → TreeNode K V (NodeRef K V) →
    Except StorageError (TreeNode K V (NodeRef K V))
  | .leaf leftEntries leftCount, .leaf rightEntries rightCount =>
    .ok (.leaf (leftEntries ++ rightEntries) (leftCount+rightCount))
  | .branch leftKeys leftChildren leftCount, .branch rightKeys rightChildren rightCount =>
    .ok (.branch (leftKeys ++ separator::rightKeys) (leftChildren ++ rightChildren) (leftCount+rightCount))
  | _, _ => .error .corrupt

/-- Merge two adjacent children when the merged node fits; `none` leaves them alone. -/
def mergeChildren (leftIndex : ℕ) : Except StorageError (Option (List K × List (NodeRef K V))) :=
  match children[leftIndex]?, children[leftIndex+1]?, keys[leftIndex]? with
  | some leftRef, some rightRef, some separator => do
    let left ← c.load tx kind leftRef
    let right ← c.load tx kind rightRef
    let merged ← mergeNodes separator left right
    if c.nodeFits merged then
      return some (keys.eraseIdx leftIndex,(children.set leftIndex (.loaded merged)).eraseIdx (leftIndex+1))
    else return none
  | _, _, _ => .error .corrupt
def mergeAround (depth : ℕ) (keys : List K) (children : List (NodeRef K V))
    (index : ℕ) : Except StorageError (List K × List (NodeRef K V)) :=
  if children.length ≤ 1 then .ok (keys,children)
  else do
    let mergeIndex := if children.length - 1 ≤ index then index - 1 else index
    match ← c.mergeChildren tx kind keys children mergeIndex with
    | none => return (keys,children)
    | some (keys,children) =>
      if mergeIndex = 0 then return (keys,children)
      else match children[mergeIndex]? with
        | none => .error .corrupt
        | some merged => do
          let minimum ← c.minimumKey tx kind depth merged
          return (keys.set (mergeIndex - 1) minimum,children)
def settleChild (depth : ℕ) (keys : List K) (children : List (NodeRef K V))
    (index : ℕ) (child : NodeRef K V) : Except StorageError (List K × List (NodeRef K V) × ℕ) := do
  let node ← c.load tx kind child
  if node.count = 0 then
    if index = 0 then return (keys.eraseIdx 0,children.eraseIdx 0,0)
    else return (keys.eraseIdx (index - 1),children.eraseIdx index,index - 1)
  else if index = 0 then return (keys,children,0)
  else
    let minimum ← c.minimumKey tx kind depth child
    return (keys.set (index - 1) minimum,children,index)

/-- Remove a key from a subtree; `none` when the key is absent. -/
def delete (tx : WriteTxn B) (kind : TreeKind) : ℕ → NodeRef K V → K → Except StorageError (Option (Edited K V))
  | 0, _, _ => .error .corrupt
  | depth+1, ref, key => do
    match ← c.load tx kind ref with
    | .leaf entries count =>
      let position := entries.findIdx (fun e => key ≤ e.1)
      match entries[position]? with
      | some e =>
        if e.1 = key then return some (.loaded (.leaf (entries.eraseIdx position) (count - 1)),none) else return none
      | none => return none
    | .branch keys children count =>
      let index := childIndex keys key
      match children[index]? with
      | none => .error .corrupt
      | some child =>
        match ← delete tx kind depth child key with
        | none => return none
        | some edited =>
          let (keys,children) := replaceChild keys children index edited
          let (keys,children,index) ← c.settleChild tx kind depth keys children index edited.1
          if children.length = 0 then return some (.loaded (.leaf [] (count - 1)),none)
          let (keys,children) ← c.mergeAround tx kind depth keys children index
          let edited ← c.finishBranch keys children (count - 1)
          return some edited

/-- Replace a root without separators by its only child. -/
def collapse (tx : WriteTxn B) (kind : TreeKind) : ℕ → NodeRef K V → Except StorageError (NodeRef K V)
  | 0, _ => .error .corrupt
  | depth+1, ref => do
    match ← c.load tx kind ref with
    | .leaf _ _ => return ref
    | .branch (_::_) _ _ => return ref
    | .branch [] [] count => if count = 0 then return .loaded (.leaf [] 0) else .error .corrupt
    | .branch [] [child] _ => collapse tx kind depth child
    | .branch [] _ _ => .error .corrupt
def getFrom (tx : WriteTxn B) (kind : TreeKind) : ℕ → NodeRef K V → K → Except StorageError (Option V)
  | 0, _, _ => .error .corrupt
  | depth+1, ref, key => do
    match ← c.load tx kind ref with
    | .leaf entries _ =>
      match entries[entries.findIdx (fun e => key ≤ e.1)]? with
      | some e => if e.1 = key then return some e.2 else return none
      | none => return none
    | .branch keys children _ =>
      match children[childIndex keys key]? with
      | none => .error .corrupt
      | some child => getFrom tx kind depth child key
def limitReached (limit : ℤ) (result : List (K × V)) : Bool := 0 < limit && limit ≤ result.length
def scanEntries (finish : Option K) (limit : ℤ) : List (K × V) → List (K × V) → List (K × V)
  | [], result => result
  | e::rest, result =>
    if finish.any (· ≤ e.1) then result
    else
      let result := result ++ [e]
      if limitReached limit result then result else scanEntries finish limit rest result
def scanChildren (visit : NodeRef K V → List (K × V) → Except StorageError (List (K × V))) (finish : Option K)
    (limit : ℤ) : List (Option K × NodeRef K V) → List (K × V) → Except StorageError (List (K × V))
  | [], result => .ok result
  | (separator,child) :: rest, result =>
    if separator.any (fun s => finish.any (· ≤ s)) then .ok result
    else do
      let result ← visit child result
      if limitReached limit result then return result else scanChildren visit finish limit rest result

/-- Collect the entries of a subtree within the key range and limit. -/
def scan (tx : WriteTxn B) (kind : TreeKind) (start finish : Option K) (limit : ℤ) :
    ℕ → NodeRef K V → List (K × V) → Except StorageError (List (K × V))
  | 0, _, _ => .error .corrupt
  | depth+1, ref, result =>
    if limitReached limit result then .ok result
    else do
      match ← c.load tx kind ref with
      | .leaf entries _ =>
        let position := match start with
          | none => 0
          | some s => entries.findIdx (fun e => s ≤ e.1)
        return scanEntries finish limit (entries.drop position) result
      | .branch keys children _ =>
        let index := match start with
          | none => 0
          | some s => keys.findIdx (fun k => s < k)
        scanChildren (scan tx kind start finish limit depth) finish limit
          (((none :: keys.map some).zip children).drop index) result
def flushChildren (write : WriteTxn B → NodeRef K V → Except StorageError (PageRef × WriteTxn B)) :
    WriteTxn B → List (NodeRef K V) → Except StorageError (List PageRef × WriteTxn B)
  | tx, [] => .ok ([],tx)
  | tx, child::rest => do
    let (page,tx) ← write tx child
    let (pages,tx) ← flushChildren write tx rest
    return (page::pages,tx)
def writeNode (tx : WriteTxn B) (node : TreeNode K V PageRef) :
    Except StorageError (PageRef × WriteTxn B) := do
  let _ ← c.treeNodeEncodedSize node
  let (pageID,tx) ← tx.appendPage (c.encode kind node)
  return (⟨pageID,node.count⟩,tx)

/-- Write the changed nodes of a subtree; unchanged pages are kept. -/
def flush (kind : TreeKind) : ℕ → WriteTxn B → NodeRef K V → Except StorageError (PageRef × WriteTxn B)
  | _, tx, .stored page => .ok (page,tx)
  | 0, _, .loaded _ => .error .corrupt
  | _+1, tx, .loaded (.leaf entries count) => c.writeNode kind tx (.leaf entries count)
  | depth+1, tx, .loaded (.branch keys children count) => do
    let (pages,tx) ← flushChildren (flush kind depth) tx children
    c.writeNode kind tx (.branch keys pages count)

end TreeCodec

namespace MutableTree
variable (c : TreeCodec B K V)

def openTree (tx : WriteTxn B) (rootPage : ℕ) (kind : TreeKind) : Except StorageError (MutableTree K V) :=
  if rootPage = 0 then .ok ⟨kind,.loaded (.leaf [] 0),1⟩
  else do
    let node ← c.reference tx kind rootPage
    return ⟨kind,.stored ⟨rootPage,node.count⟩,tx.nextPage⟩
def put (tree : MutableTree K V) (tx : WriteTxn B) (key : K) (value : V) : Except StorageError (MutableTree K V) := do
  c.checkKey key
  match ← c.put tx tree.kind tree.depth tree.root key value with
  | (left,none) => return { tree with root := left }
  | (left,some (separator,right)) =>
    return { tree with root := .loaded (.branch [separator] [left,right] (left.count+right.count)),
                       depth := tree.depth+1 }
def get (tree : MutableTree K V) (tx : WriteTxn B) (key : K) : Except StorageError (Option V) :=
  c.getFrom tx tree.kind tree.depth tree.root key

/-- Remove a key; the flag reports whether it was present. -/
def delete (tree : MutableTree K V) (tx : WriteTxn B) (key : K) : Except StorageError (Bool × MutableTree K V) :=
  if c.keyLen key = 0 then .error .corrupt
  else do
    match ← c.delete tx tree.kind tree.depth tree.root key with
    | none => return (false,tree)
    | some (left,none) =>
      let root ← c.collapse tx tree.kind tree.depth left
      return (true,{ tree with root := root })
    | some (left,some (separator,right)) =>
      let root ← c.collapse tx tree.kind (tree.depth+1)
        (.loaded (.branch [separator] [left,right] (left.count+right.count)))
      return (true,{ tree with root := root, depth := tree.depth+1 })

/-- Entries of `[start, finish)` in key order, at most `limit` of them when it is positive. -/
def scan (tree : MutableTree K V) (tx : WriteTxn B) (start finish : Option K) (limit : ℤ) :
    Except StorageError (List (K × V)) :=
  if start.any (fun s => finish.any (· < s)) then .error .corrupt
  else c.scan tx tree.kind start finish limit tree.depth tree.root []
def flush (tree : MutableTree K V) (tx : WriteTxn B) : Except StorageError (ℕ × WriteTxn B × MutableTree K V) := do
  let (page,tx) ← c.flush tree.kind tree.depth tx tree.root
  return (page.pageID,tx,{ tree with root := .stored page })

end MutableTree
end Meldbase.Storage
