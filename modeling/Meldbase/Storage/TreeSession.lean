import Meldbase.Storage.TreeRefinement

/-! # Sessions over one tree

A session edits a tree, flushes it, reopens any root it flushed, and moves on to
later write transactions, which keep the pages of the root they continue from.
The simulation relates every reached session to the map the same operations
build.
-/
namespace Meldbase.Storage
open Entries ListSurgery Outcome TreeCodec

abbrev TreePage := TreeKind × TreeNode Bytes Bytes PageRef

/-- Trees over byte strings, measured by their lengths. -/
def bytesCodec : TreeCodec TreePage Bytes Bytes where
  keyLen := List.length
  valueLen := List.length
  encode kind node := (kind,node)
  decode page := if page.2.decodable List.length then some page else none
  decode_encode := fun kind node h => by simp [h]

variable {B K V : Type} [LinearOrder K]

namespace TreeCodec
variable (c : TreeCodec B K V)

def treePages (tx : WriteTxn B) (kind : TreeKind) : ℕ → NodeRef K V → List ℕ
  | 0, _ => []
  | depth+1, ref =>
    (match ref with
      | .stored page => [page.pageID]
      | .loaded _ => []) ++
    match c.load tx kind ref with
      | .ok (.branch _ children _) => children.flatMap (treePages tx kind depth)
      | _ => []
def storedPages (tx : WriteTxn B) (kind : TreeKind) (rootPage : ℕ) : List ℕ :=
  match c.reference tx kind rootPage with
  | .ok node => c.treePages tx kind tx.nextPage (.stored ⟨rootPage,node.count⟩)
  | .error _ => []

end TreeCodec

/-- A subtree is untouched as long as its own pages keep their content. -/
theorem Represents.transfer {c : TreeCodec B K V} {tx tx' : WriteTxn B} {kind : TreeKind} {h depth : ℕ}
    {ref : NodeRef K V} {es : List (K × V)} (hd : h < depth) (hr : Represents c tx kind h ref es)
    (hkeep : ∀ id ∈ c.treePages tx kind depth ref, tx'.Allocated id ∧ tx'.readPage id = tx.readPage id) :
    Represents c tx' kind h ref es := by
  have hview : ∀ {depth : ℕ} {ref : NodeRef K V} {node : TreeNode K V (NodeRef K V)}, Views c tx kind ref node →
      (∀ id ∈ c.treePages tx kind (depth+1) ref, tx'.Allocated id ∧ tx'.readPage id = tx.readPage id) →
      Views c tx' kind ref node := by
    intro depth ref node hv hkeep
    cases ref with
    | loaded n => exact ⟨hv.loads,fun _ h => nomatch h⟩
    | stored page =>
      obtain ⟨halloc,hread⟩ := hkeep page.pageID (by simp [treePages])
      refine ⟨?_,by rintro _ ⟨⟩; exact halloc⟩
      have hl := hv.loads
      simp only [TreeCodec.load,reference,hread] at hl ⊢
      exact hl
  induction h generalizing depth ref es with
  | zero =>
    obtain ⟨depth,rfl⟩ := exists_depth hd
    exact ⟨hview hr.1 hkeep,hr.2⟩
  | succ h ih =>
    obtain ⟨depth,rfl⟩ := exists_depth hd
    obtain ⟨keys,children,pieces,hv,hch,hrest⟩ := hr
    refine ⟨keys,children,pieces,hview hv hkeep,?_,hrest⟩
    rw [List.forall₂_iff_get] at hch ⊢
    refine ⟨hch.1,fun i hi hi' => ih (show h < depth by omega) (hch.2 i hi hi') (fun id hid => hkeep id ?_)⟩
    simp only [treePages,hv.loads,List.mem_append,List.mem_flatMap]
    exact .inr ⟨_,List.get_mem _ ⟨i,hi⟩,hid⟩

structure TreeSession (B K V : Type) where
  tx : WriteTxn B
  tree : MutableTree K V
  roots : List ℕ

/-- What a session does.  `stage` is a page written by another tree of the transaction. -/
inductive TreeOp (B K V : Type) where
  | put (key : K) (value : V)
  | delete (key : K)
  | flush
  | reopen (index : ℕ)
  | stage (body : B)
  | nextTransaction (index : ℕ)

/-- Successful steps.  The next transaction starts on any file that keeps the pages of its root. -/
inductive TreeSession.Step (c : TreeCodec B K V) (kind : TreeKind) :
    TreeSession B K V → TreeOp B K V → TreeSession B K V → Prop
  | put {s key value tree'} (h : s.tree.put c s.tx key value = .ok tree') :
    Step c kind s (.put key value) { s with tree := tree' }
  | delete {s key removed tree'} (h : s.tree.delete c s.tx key = .ok (removed,tree')) :
    Step c kind s (.delete key) { s with tree := tree' }
  | flush {s rootPage tx' tree'} (h : s.tree.flush c s.tx = .ok (rootPage,tx',tree')) :
    Step c kind s .flush ⟨tx',tree',s.roots ++ [rootPage]⟩
  | reopen {s index rootPage tree'} (hroot : s.roots[index]? = some rootPage)
    (h : MutableTree.openTree c s.tx rootPage kind = .ok tree') : Step c kind s (.reopen index) { s with tree := tree' }
  | stage {s body id tx'} (h : s.tx.appendPage body = .ok (id,tx')) : Step c kind s (.stage body) { s with tx := tx' }
  | nextTransaction {s index rootPage tree'} {tx' : WriteTxn B} (hroot : s.roots[index]? = some rootPage)
    (hwf : tx'.WellFormed)
    (hkeep : ∀ id ∈ c.storedPages s.tx kind rootPage, tx'.Allocated id ∧ tx'.readPage id = s.tx.readPage id)
    (h : MutableTree.openTree c tx' rootPage kind = .ok tree') :
    Step c kind s (.nextTransaction index) ⟨tx',tree',[rootPage]⟩

inductive TreeSession.Run (c : TreeCodec B K V) (kind : TreeKind) :
    TreeSession B K V → List (TreeOp B K V) → TreeSession B K V → Prop
  | nil {s} : Run c kind s [] s
  | snoc {s s' s'' ops op} (hrun : Run c kind s ops s') (hstep : Step c kind s' op s'') : Run c kind s (ops ++ [op]) s''

structure MapSession (K V : Type) [LinearOrder K] where
  current : SortedMap K V
  flushed : List (SortedMap K V)

def MapSession.step (a : MapSession K V) : TreeOp B K V → MapSession K V
  | .put key value => { a with current := a.current.insert key value }
  | .delete key => { a with current := a.current.erase key }
  | .flush => { a with flushed := a.flushed ++ [a.current] }
  | .reopen index => { a with current := (a.flushed[index]?).getD a.current }
  | .stage _ => a
  | .nextTransaction index =>
    { current := (a.flushed[index]?).getD a.current, flushed := [(a.flushed[index]?).getD a.current] }
def mapOf (ops : List (TreeOp B K V)) : MapSession K V := ops.foldl MapSession.step ⟨∅,[]⟩

structure Simulates (c : TreeCodec B K V) (kind : TreeKind) (s : TreeSession B K V) (a : MapSession K V) : Prop where
  wellFormed : s.tx.WellFormed
  kind_eq : s.tree.kind = kind
  holds : s.tree.Holds c s.tx a.current
  roots : List.Forall₂ (fun rootPage m => MutableTree.StoredAt c s.tx kind rootPage m) s.roots a.flushed

variable {c : TreeCodec B K V} {kind : TreeKind}

theorem Simulates.root (h : Simulates c kind s a) {index rootPage : ℕ}
    (hroot : s.roots[index]? = some rootPage) :
    ∃ m, a.flushed[index]? = some m ∧ MutableTree.StoredAt c s.tx kind rootPage m := by
  obtain ⟨hi,rfl⟩ := List.getElem?_eq_some_iff.mp hroot
  have hi' : index < a.flushed.length := h.roots.length_eq ▸ hi
  exact ⟨_,List.getElem?_eq_getElem hi',List.Forall₂.get h.roots hi hi'⟩

theorem storedAt_transfer {rootPage : ℕ} (h : MutableTree.StoredAt c tx kind rootPage m)
    (hkeep : ∀ id ∈ c.storedPages tx kind rootPage, tx'.Allocated id ∧ tx'.readPage id = tx.readPage id) :
    MutableTree.StoredAt c tx' kind rootPage m := by
  obtain ⟨height,page,rfl,hr⟩ := h
  refine ⟨height,page,rfl,hr.transfer hr.height_lt ?_⟩
  obtain ⟨node,hv,-⟩ := hr.exists_view
  obtain ⟨n,href,hl⟩ := bind_eq_ok.mp hv.loads
  have hcount : page.count = n.count := by
    split at hl
    · assumption
    · cases hl
  simpa only [storedPages,href,← hcount] using hkeep

theorem Simulates.step {op : TreeOp B K V} (h : Simulates c kind s a)
    (hstep : TreeSession.Step c kind s op s') : Simulates c kind s' (a.step op) := by
  cases hstep with
  | put hput =>
    obtain ⟨hk,hh⟩ := MutableTree.put_holds h.holds hput
    exact ⟨h.wellFormed,hk.trans h.kind_eq,hh,h.roots⟩
  | delete hdel =>
    obtain ⟨hk,-,hh⟩ := MutableTree.delete_holds h.holds hdel
    exact ⟨h.wellFormed,hk.trans h.kind_eq,hh,h.roots⟩
  | flush hflush =>
    obtain ⟨hk,hext,hh,hstored⟩ := MutableTree.flush_holds h.wellFormed h.holds hflush
    rw [h.kind_eq] at hstored
    refine ⟨hext.wellFormed,hk.trans h.kind_eq,hh,?_⟩
    exact List.rel_append (h.roots.imp (fun _ _ hr => hr.mono hext)) (List.Forall₂.cons hstored List.Forall₂.nil)
  | reopen hroot hopen =>
    obtain ⟨m,hm,hstored⟩ := h.root hroot
    obtain ⟨hk,hh⟩ := MutableTree.openTree_holds hstored hopen
    exact ⟨h.wellFormed,hk,by simpa [MapSession.step,hm] using hh,h.roots⟩
  | stage happend =>
    obtain ⟨-,-,-,hext⟩ := WriteTxn.appendPage_spec h.wellFormed happend
    exact ⟨hext.wellFormed,h.kind_eq,h.holds.mono hext,h.roots.imp (fun _ _ hr => hr.mono hext)⟩
  | nextTransaction hroot hwf hkeep hopen =>
    obtain ⟨m,hm,hstored⟩ := h.root hroot
    have hstored' := storedAt_transfer hstored hkeep
    obtain ⟨hk,hh⟩ := MutableTree.openTree_holds hstored' hopen
    refine ⟨hwf,hk,by simpa [MapSession.step,hm] using hh,?_⟩
    simpa [MapSession.step,hm] using hstored'

theorem TreeSession.Run.simulates (hwf : tx0.WellFormed) (hopen : MutableTree.openTree c tx0 0 kind = .ok tree0)
    (hrun : TreeSession.Run c kind ⟨tx0,tree0,[]⟩ ops s) : Simulates c kind s (mapOf ops) := by
  generalize hstart : (⟨tx0,tree0,[]⟩ : TreeSession B K V) = start at hrun
  induction hrun with
  | nil =>
    subst hstart
    obtain ⟨hk,hh⟩ := MutableTree.openTree_empty hopen
    exact ⟨hwf,hk,hh,List.Forall₂.nil⟩
  | snoc hrun hstep ih =>
    rw [mapOf,List.foldl_append]
    exact ih.step hstep

/-- Every successful session answers lookups and scans as the sorted map built by its puts and
deletes, and its tree keeps the node invariant `Represents` at one uniform height. -/
theorem mutableTree_refines_sortedMap {tx0 : WriteTxn TreePage} {tree0 : MutableTree Bytes Bytes}
    {ops : List (TreeOp TreePage Bytes Bytes)} {s : TreeSession TreePage Bytes Bytes} (hwf : tx0.WellFormed)
    (hopen : MutableTree.openTree bytesCodec tx0 0 kind = .ok tree0)
    (hrun : TreeSession.Run bytesCodec kind ⟨tx0,tree0,[]⟩ ops s) :
    (∃ h < s.tree.depth, Represents bytesCodec s.tx kind h s.tree.root (mapOf ops).current.entries) ∧
    (∀ key, s.tree.get bytesCodec s.tx key = .ok ((mapOf ops).current.find key)) ∧
    ∀ start finish limit, (∀ b e, start = some b → finish = some e → b ≤ e) →
      s.tree.scan bytesCodec s.tx start finish limit =
        .ok (limited limit (range (mapOf ops).current.entries start finish)) := by
  have hsim := TreeSession.Run.simulates hwf hopen hrun
  refine ⟨?_,fun key => MutableTree.get_eq hsim.holds key,fun start finish limit hb => MutableTree.scan_eq hsim.holds limit hb⟩
  have hh := hsim.holds
  unfold MutableTree.Holds at hh
  rwa [hsim.kind_eq] at hh

/-- A transaction on a new file with room for a few pages. -/
def firstTransaction : WriteTxn TreePage where
  file := fun _ => none
  filePages := 2
  maxPhysicalPages := 16
  generation := 2
  sequence := 1
  nextPage := 2
  freePages := []

theorem firstTransaction_wellFormed : firstTransaction.WellFormed :=
  ⟨le_rfl,List.nodup_nil,fun _ h => nomatch h⟩

theorem mutableTree_refines_sortedMap_reopened : ∃ s : TreeSession TreePage Bytes Bytes,
      s.tree.get bytesCodec s.tx [1] = .ok (some [10]) ∧ s.tree.get bytesCodec s.tx [3] = .ok none := by
  have hrun : TreeSession.Run bytesCodec .primary ⟨firstTransaction,⟨.primary,.loaded (.leaf [] 0),1⟩,[]⟩
      ([] ++ [.put [1] [10]] ++ [.put [2] [20]] ++ [.flush] ++ [.delete [1]] ++ [.reopen 0]) _ :=
    .snoc (.snoc (.snoc (.snoc (.snoc .nil (.put rfl)) (.put rfl)) (.flush rfl)) (.delete rfl)) (.reopen rfl rfl)
  have h := mutableTree_refines_sortedMap firstTransaction_wellFormed rfl hrun
  exact ⟨_,h.2.1 [1],h.2.1 [3]⟩

end Meldbase.Storage
