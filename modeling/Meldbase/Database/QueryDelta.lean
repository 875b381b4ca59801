import Meldbase.Database.Value
import Meldbase.Library.KeyedList

/-! # Query deltas

A delta turns one ordered query result into another by removals, placements
before an anchor and replacements of documents.  The linked list with its index
by document ID is the list of its nodes.  A delta computed from one result also
turns every result that agrees with it up to `Document.equal` into the next one,
which is what a subscriber that skipped an unchanged state holds.
-/
namespace Meldbase.Database
open Outcome List Option Prod
open Logical (zeroIdentifier)

inductive QueryDeltaOperationKind where
  | remove | add | move | change
  deriving DecidableEq, Repr

/-- One edit of an ordered query result.  A zero `beforeID` means the end of the
result; document IDs are never zero. -/
structure QueryDeltaOperation where
  kind : QueryDeltaOperationKind
  documentID : DocumentID
  beforeID : DocumentID := zeroIdentifier
  document : Option Document := none

structure QueryDelta where
  (fromToken token : ℕ)
  operations : List QueryDeltaOperation

structure SharedQueryDelta where
  token : ℕ
  operations : List QueryDeltaOperation

structure QuerySnapshot where
  token : ℕ
  documents : List Document

/-- The details under which `ErrInvalidDelta` is returned. -/
inductive InvalidDelta where
  | noValidID | duplicateDocument | tokenContract | zeroDocumentID | beforeAnchor
  | remove | add | move | change
  deriving DecidableEq, Repr

abbrev QueryDeltaList := List (DocumentID × Document)
def Document.validID (d : Document) : Option DocumentID := d.id.filter fun id => !id.isZero

variable (documents : List Document)

def newQueryDeltaList : Except InvalidDelta QueryDeltaList :=
  documents.foldlM (fun list d =>
    match d.validID with
    | none => .error .noValidID
    | some id => if (KeyedList.find id list).isSome then .error .duplicateDocument else .ok (list ++ [(id,d)])) []
def documentSlicesEqual : List Document → List Document → Bool
  | [],[] => true
  | a::as,b::bs => a.equal b && documentSlicesEqual as bs
  | _,_ => false
def sameOrderChanges : List Document → List Document → Except InvalidDelta (Option (List QueryDeltaOperation))
  | p::ps,n::ns =>
    match p.validID,n.validID with
    | some previousID,some nextID =>
      if previousID ≠ nextID then .ok none
      else do
        let rest ← sameOrderChanges ps ns
        return rest.map fun operations =>
          if p.equal n then operations else { kind := .change, documentID := nextID, document := some n } :: operations
    | _,_ => .error .noValidID
  | _,_ => .ok (some [])
def unmovedChanges (previous next : List Document) : Except InvalidDelta (Option (List QueryDeltaOperation)) :=
  if previous.length = next.length then sameOrderChanges previous next else .ok none

structure DeltaBuild where
  list : QueryDeltaList
  anchor : Option DocumentID := none
  operations : List QueryDeltaOperation := []

def removeStale (nextDocuments : QueryDeltaList) (b : DeltaBuild) (node : DocumentID × Document) : DeltaBuild :=
  if (KeyedList.find node.1 nextDocuments).isSome then b
  else
    { b with
      list := KeyedList.remove node.1 b.list
      operations := b.operations ++ [{ kind := .remove, documentID := node.1 }] }

/-- Brings a document of the next result in front of the anchor. -/
def placeDocument (oldDocuments : QueryDeltaList) (document : Document) (b : DeltaBuild) : DeltaBuild :=
  let id := document.id.getD zeroIdentifier
  let beforeID := b.anchor.getD zeroIdentifier
  match KeyedList.find id b.list with
  | none =>
    { list := KeyedList.insertBefore (id,document) b.anchor b.list
      anchor := some id
      operations := b.operations ++ [{ kind := .add, documentID := id, beforeID := beforeID, document := some document }] }
  | some held =>
    let settled := KeyedList.successor id b.list = b.anchor
    { list := if settled then b.list else KeyedList.insertBefore (id,held) b.anchor (KeyedList.remove id b.list)
      anchor := some id
      operations := b.operations ++
        (if settled then [] else [{ kind := .move, documentID := id, beforeID := beforeID }]) ++
        if ((KeyedList.find id oldDocuments).getD []).equal document then []
        else [{ kind := .change, documentID := id, document := some document }] }
def buildSharedQueryDelta (previous next : List Document) (token : ℕ) : Except InvalidDelta SharedQueryDelta := do
  let changes ← unmovedChanges previous next
  match changes with
  | some operations => return { token, operations }
  | none =>
    let oldList ← newQueryDeltaList previous
    let nextDocuments ← newQueryDeltaList next
    let removed := oldList.foldl (removeStale nextDocuments) { list := oldList }
    return { token, operations := (next.foldr (placeDocument oldList) removed).operations }
def documentHasID (document : Option Document) (expected : DocumentID) : Bool :=
  match document with
  | none => false
  | some d => d.validID = some expected && d.validate
def applyOperation (list : QueryDeltaList) (operation : QueryDeltaOperation) : Except InvalidDelta QueryDeltaList :=
  let anchor : Option DocumentID := if operation.beforeID.isZero then none else some operation.beforeID
  if operation.documentID.isZero then .error .zeroDocumentID
  else if (anchor.any fun a => (KeyedList.find a list).isNone || a = operation.documentID) then .error .beforeAnchor
  else match operation.kind,KeyedList.find operation.documentID list,operation.document with
  | .remove,node,document =>
    if node.isNone || anchor.isSome || document.isSome then .error .remove
    else .ok (KeyedList.remove operation.documentID list)
  | .add,none,some document =>
    if documentHasID (some document) operation.documentID then
      .ok (KeyedList.insertBefore (operation.documentID,document) anchor list)
    else .error .add
  | .add,_,_ => .error .add
  | .move,some held,none =>
    if KeyedList.successor operation.documentID list = anchor then .error .move
    else .ok (KeyedList.insertBefore (operation.documentID,held) anchor (KeyedList.remove operation.documentID list))
  | .move,_,_ => .error .move
  | .change,some _,some document =>
    if anchor.isNone && documentHasID (some document) operation.documentID then
      .ok (KeyedList.replace operation.documentID document list)
    else .error .change
  | .change,_,_ => .error .change

/-- Validates and applies ordered changes to a copy of the snapshot. -/
def applyQueryDelta (snapshot : QuerySnapshot) (delta : QueryDelta) : Except InvalidDelta QuerySnapshot :=
  if delta.fromToken ≠ snapshot.token ∨ delta.token ≤ delta.fromToken ∨ delta.operations.isEmpty then .error .tokenContract
  else do
    let list ← newQueryDeltaList snapshot.documents
    let list ← delta.operations.foldlM applyOperation list
    return { token := delta.token, documents := list.map snd }
def cloneSharedQueryDelta (delta : SharedQueryDelta) (fromToken : ℕ) : QueryDelta :=
  { fromToken, token := delta.token, operations := delta.operations }

/-! ### Results -/

def Document.key (d : Document) : DocumentID := d.id.getD zeroIdentifier

structure ValidResult (documents : List Document) : Prop where
  ids : ∀ d ∈ documents, d.validID = some d.key
  distinct : (documents.map Document.key).Nodup
  valid : ∀ d ∈ documents, d.validate

def Alike (held d : Document) : Prop := held.id = d.id ∧ (held = d ∨ held.equal d)
def Stands (node : DocumentID × Document) (d : Document) : Prop := node.1 = d.key ∧ Alike node.2 d
def nodesOf : QueryDeltaList := documents.map fun d => (d.key,d)

@[simp] theorem keys_nodesOf :
    KeyedList.keys (nodesOf documents) = documents.map Document.key := by simp [KeyedList.keys,nodesOf]

theorem Alike.refl (d : Document) : Alike d d := ⟨rfl,.inl rfl⟩

theorem Alike.equal (hab : Alike a b) (hbc : b.equal c) (hid : b.id = c.id) : Alike a c := by
  refine ⟨hab.1.trans hid,.inr ?_⟩
  rcases hab.2 with rfl | hab
  · exact hbc
  · exact Document.equal_trans hab hbc

theorem Alike.key (h : Alike a b) : a.key = b.key := congrArg (·.getD zeroIdentifier) h.1

theorem Alike.validID (h : Alike a b) : a.validID = b.validID := by
  unfold Document.validID
  rw [h.1]

theorem Document.isZero_key {d : Document} (h : d.validID = some d.key) : d.key.isZero = false := by
  have hfilter := (filter_eq_some_iff.mp h).2
  simpa using hfilter

theorem Document.id_eq_key {d : Document} (h : d.validID = some d.key) : d.id = some d.key :=
  (filter_eq_some_iff.mp h).1

variable {held documents : List Document}

section
variable (h : Forall₂ Alike held documents)
include h

theorem alike_keys : held.map Document.key = documents.map Document.key := by
  induction h with
  | nil => rfl
  | cons hd _ ih => simp [hd.key,ih]

theorem alike_exists : ∀ d ∈ held, ∃ e ∈ documents, Alike d e := by
  induction h with
  | nil => simp
  | cons hde _ ih =>
    refine forall_mem_cons.mpr ⟨⟨_,mem_cons_self,hde⟩,fun d hd => ?_⟩
    obtain ⟨e,he,halike⟩ := ih d hd
    exact ⟨e,mem_cons_of_mem _ he,halike⟩

theorem alike_validID (hd : ∀ d ∈ documents, d.validID = some d.key) : ∀ d ∈ held, d.validID = some d.key := by
  intro d hmem
  obtain ⟨e,he,hde⟩ := alike_exists h d hmem
  rw [hde.validID,hde.key,hd e he]

end

theorem newQueryDeltaList_eq (hd : ValidResult documents)
    (h : Forall₂ Alike held documents) : newQueryDeltaList held = .ok (nodesOf held) := by
  have hnodup : (held.map Document.key).Nodup := alike_keys h ▸ hd.distinct
  -- the fold has listed the documents in front
  have hfold : ∀ rest front, (front ++ rest).map Document.key |>.Nodup → (∀ d ∈ rest, d.validID = some d.key) →
      rest.foldlM (fun list d =>
        match d.validID with
        | none => .error .noValidID
        | some id =>
          if (KeyedList.find id list).isSome then .error .duplicateDocument else .ok (list ++ [(id,d)]))
        (nodesOf front) = (.ok (nodesOf (front ++ rest)) : Except InvalidDelta _) := by
    intro rest
    induction rest with
    | nil => simp
    | cons d rest ih =>
      intro front hn hv
      have hfresh : KeyedList.find d.key (nodesOf front) = none := by
        rw [KeyedList.find_eq_none,keys_nodesOf]
        rw [map_append] at hn
        exact fun hm => disjoint_of_nodup_append hn hm (by simp)
      have hnext : nodesOf front ++ [(d.key,d)] = nodesOf (front ++ [d]) := by simp [nodesOf]
      rw [foldlM_cons,hv d mem_cons_self]
      simp only [hfresh,isSome_none,Bool.false_eq_true,if_false,ok_bind,hnext]
      rw [ih (front ++ [d]) (by simpa using hn) fun x hx => hv x (mem_cons_of_mem _ hx)]
      simp
  exact hfold held [] hnodup (alike_validID h hd.ids)

/-! ### One operation -/

section operations
open KeyedList

theorem anchor_getD (h : ∀ a, anchor = some a → a.isZero = false) :
    (if (anchor.getD zeroIdentifier).isZero then none else some (anchor.getD zeroIdentifier)) = anchor := by
  cases anchor with
  | none => rfl
  | some a => simp [h a rfl]

variable {list front back : QueryDeltaList} {id : DocumentID} {d held : Document} {start : QueryDeltaList}

theorem anchor_found (anchor : Option DocumentID) (list : QueryDeltaList) (id : DocumentID)
    (h : ∀ a, anchor = some a → a ∈ keys list ∧ a ≠ id) :
    anchor.any (fun a => (find a list).isNone || a = id) = false := by
  cases anchor with
  | none => rfl
  | some a =>
    obtain ⟨hmem,hne⟩ := h a rfl
    have hfound : (find a list).isSome := isSome_iff_ne_none.mpr fun hf => find_eq_none.mp hf hmem
    simp [hne,hfound]

theorem applyOperation_remove (hz : id.isZero = false) (h : id ∈ keys list) :
    applyOperation list { kind := .remove, documentID := id } = .ok (remove id list) := by
  obtain ⟨a,v,b,rfl,ha⟩ := exists_cut h
  have hzero : zeroIdentifier.isZero = true := rfl
  simp [applyOperation,hz,hzero,find_cut ha]

theorem applyOperation_add (hd : d.validID = some id) (hv : d.validate) (hz : id.isZero = false)
    (hfresh : id ∉ keys (front ++ back)) (hback : ∀ a, (keys back).head? = some a → a.isZero = false ∧ a ∉ keys front) :
    applyOperation (front ++ back)
        { kind := .add, documentID := id, beforeID := (keys back).head?.getD zeroIdentifier, document := some d } =
      .ok (front ++ (id,d) :: back) := by
  have hanchor := anchor_getD fun a ha => (hback a ha).1
  have hcheck := anchor_found _ (front ++ back) id fun a (ha : (keys back).head? = some a) => by
    have hmem : a ∈ keys (front ++ back) := by simp [mem_of_head? ha]
    exact ⟨hmem,fun h => hfresh (h ▸ hmem)⟩
  simp only [applyOperation,hanchor,hz,hcheck,Bool.false_eq_true,if_false,find_eq_none.mpr hfresh,documentHasID,hd,hv,
    decide_true,Bool.and_self,if_true,insertBefore_cut fun a ha => (hback a ha).2]

theorem applyOperation_move {last : QueryDeltaList} (hz : id.isZero = false)
    (hnodup : (keys (front ++ (id,held) :: back ++ last)).Nodup) (hne : back ≠ [])
    (hlast : ∀ a, (keys last).head? = some a → a.isZero = false) :
    applyOperation (front ++ (id,held) :: back ++ last)
        { kind := .move, documentID := id, beforeID := (keys last).head?.getD zeroIdentifier } =
      .ok (front ++ back ++ (id,held) :: last) := by
  obtain ⟨c,back,rfl⟩ := exists_cons_of_ne_nil hne
  have hanchor := anchor_getD hlast
  have hsplit := disjoint_of_nodup_append (keys_append _ _ ▸ hnodup)
  rw [append_assoc,cons_append] at hnodup ⊢
  have hid : id ∉ keys front := fun h => disjoint_of_nodup_append (keys_append _ _ ▸ hnodup) h (by simp)
  have hdisj : ∀ a, (keys last).head? = some a → a ≠ id ∧ a ≠ c.1 ∧ a ∉ keys (front ++ c::back) := by
    intro a ha
    have hmem := mem_of_head? ha
    refine ⟨fun h => hsplit (by simp [h]) hmem,fun h => hsplit (by simp [h]) hmem,fun h => hsplit ?_ hmem⟩
    rw [KeyedList.keys_append] at h ⊢
    exact (mem_append.mp h).elim (mem_append_left _) fun h => mem_append_right _ (mem_cons_of_mem _ h)
  have hcheck := anchor_found _ (front ++ (id,held) :: (c::back ++ last)) id fun a (ha : (keys last).head? = some a) =>
    ⟨by simp [mem_of_head? ha],(hdisj a ha).1⟩
  have hsucc : ¬ (keys (c::back ++ last)).head? = (keys last).head? := by
    intro h
    exact (hdisj c.1 h.symm).2.1 rfl
  simp only [applyOperation,hanchor,hz,hcheck,Bool.false_eq_true,if_false,find_cut hid,successor_cut hid,if_neg hsucc,
    remove_cut hid]
  rw [← append_assoc,insertBefore_cut fun a ha => (hdisj a ha).2.2]

theorem applyOperation_change (hd : d.validID = some id) (hv : d.validate) (hz : id.isZero = false)
    (hid : id ∉ keys front) :
    applyOperation (front ++ (id,held) :: back) { kind := .change, documentID := id, document := some d } =
      .ok (front ++ (id,d) :: back) := by
  have hzero : zeroIdentifier.isZero = true := rfl
  simp [applyOperation,hz,hzero,find_cut hid,documentHasID,hd,hv,replace_cut hid]

/-! ### The builder and the list it describes -/

/-- A list that the operations so far lead to from `start`, in the order the
builder keeps. -/
structure Follows (start : QueryDeltaList) (b : DeltaBuild) (list : QueryDeltaList) : Prop where
  applied : b.operations.foldlM applyOperation start = .ok list
  order : keys list = keys b.list
  distinct : (keys list).Nodup

theorem applied_append {operations more : List QueryDeltaOperation}
    (h : operations.foldlM applyOperation start = .ok list) :
    (operations ++ more).foldlM applyOperation start = more.foldlM applyOperation list := by
  rw [foldlM_append,h,ok_bind]

theorem removeStale_follows (nextDocuments todo : QueryDeltaList)
    {list : QueryDeltaList} (h : Follows start b list) (hold : ∀ e ∈ list, e ∈ start)
    (htodo : (keys todo).Nodup) (hmem : ∀ k ∈ keys todo, k ∈ keys list ∧ k.isZero = false)
    (hrest : ∀ k ∈ keys list, k ∈ keys nextDocuments ∨ k ∈ keys todo) :
    ∃ left, Follows start (todo.foldl (removeStale nextDocuments) b) left ∧ (∀ e ∈ left, e ∈ start) ∧
      (∀ k ∈ keys left, k ∈ keys nextDocuments) ∧ (todo.foldl (removeStale nextDocuments) b).anchor = b.anchor := by
  induction todo generalizing b list with
  | nil => exact ⟨list,h,hold,fun k hk => (hrest k hk).resolve_right (by simp),rfl⟩
  | cons node todo ih =>
    obtain ⟨hnode,hnodup⟩ := nodup_cons.mp htodo
    obtain ⟨hin,hz⟩ := hmem node.1 (by simp)
    by_cases hnext : node.1 ∈ keys nextDocuments
    · have hkeep : removeStale nextDocuments b node = b := by
        rw [removeStale,if_pos (isSome_iff_ne_none.mpr fun hf => find_eq_none.mp hf hnext)]
      rw [foldl_cons,hkeep]
      refine ih h hold hnodup (fun k hk => hmem k (mem_cons_of_mem _ hk)) fun k hk => ?_
      rcases hrest k hk with hk | hk
      · exact .inl hk
      rcases mem_cons.mp hk with rfl | hk
      · exact .inl hnext
      · exact .inr hk
    have hdrop : removeStale nextDocuments b node =
        { b with
          list := remove node.1 b.list
          operations := b.operations ++ [{ kind := .remove, documentID := node.1 }] } := by
      rw [removeStale,if_neg (by simp [find_eq_none.mpr hnext])]
    obtain ⟨front,v,back,hlist,hfront⟩ := exists_cut hin
    have hremove : remove node.1 list = front ++ back := by rw [hlist,remove_cut hfront]
    have hkeys : keys list = keys front ++ node.1 :: keys back := by rw [hlist,KeyedList.keys_append,KeyedList.keys_cons]
    have hcut := h.distinct
    rw [hkeys] at hcut
    have hgone : node.1 ∉ keys front ++ keys back := (nodup_middle.mp hcut).notMem
    have hstep : Follows start (removeStale nextDocuments b node) (front ++ back) := by
      rw [hdrop]
      refine ⟨?_,?_,?_⟩
      · rw [applied_append h.applied,foldlM_cons,applyOperation_remove hz hin,hremove]
        rfl
      · rw [← hremove]
        exact keys_remove_congr h.order
      · rw [KeyedList.keys_append]
        exact (nodup_middle.mp hcut).of_cons
    have hsub : ∀ k ∈ keys (front ++ back), k ∈ keys list := by
      intro k hk
      rw [hkeys]
      rw [KeyedList.keys_append] at hk
      exact ((sublist_cons_self node.1 (keys back)).append_left _).subset hk
    have hold' : ∀ e ∈ front ++ back, e ∈ start := by
      intro e he
      refine hold e ?_
      rw [hlist]
      exact ((sublist_cons_self (node.1,v) back).append_left _).subset he
    have hmem' : ∀ k ∈ keys todo, k ∈ keys (front ++ back) ∧ k.isZero = false := by
      intro k hk
      obtain ⟨hk',hkz⟩ := hmem k (mem_cons_of_mem _ hk)
      have hne : k ≠ node.1 := fun he => hnode (he ▸ hk)
      rw [hkeys] at hk'
      refine ⟨?_,hkz⟩
      rw [KeyedList.keys_append]
      simpa [hne] using hk'
    have hrest' : ∀ k ∈ keys (front ++ back), k ∈ keys nextDocuments ∨ k ∈ keys todo := by
      intro k hk
      rcases hrest k (hsub k hk) with hk' | hk'
      · exact .inl hk'
      rcases mem_cons.mp hk' with rfl | hk'
      · exact absurd (keys_append front back ▸ hk) hgone
      · exact .inr hk'
    obtain ⟨left,hfollow,hleft,hnexts,hanchor⟩ := ih hstep hold' hnodup hmem' hrest'
    refine ⟨left,by rwa [foldl_cons],hleft,hnexts,?_⟩
    rw [foldl_cons,hanchor,hdrop]

theorem stands_keys {placed : QueryDeltaList} {documents : List Document} (h : Forall₂ Stands placed documents) :
    keys placed = documents.map Document.key := by
  induction h with
  | nil => rfl
  | cons hd _ ih => simp [hd.1,ih]

/-- What the builder reads of the previous result stands behind a node that no
operation has replaced. -/
def Untouched (oldDocuments : QueryDeltaList) (node : DocumentID × Document) : Prop :=
  ∃ o : Document, find node.1 oldDocuments = some o ∧ o.validID = some o.key ∧ Stands node o

theorem placeDocument_follows {b : DeltaBuild}
    (h : Follows start b (left ++ placed)) (hplaced : Forall₂ Stands placed ds)
    (hanchor : b.anchor = (ds.map Document.key).head?) (hds : ∀ e ∈ ds, e.validID = some e.key)
    (hd : d.validID = some d.key) (hv : d.validate) (hnew : d.key ∉ ds.map Document.key)
    (hleft : ∀ e ∈ left, Untouched oldDocuments e) :
    ∃ rest v, Follows start (placeDocument oldDocuments d b) (rest ++ (d.key,v) :: placed) ∧ Alike v d ∧
      (∀ e ∈ rest, e ∈ left) ∧ (placeDocument oldDocuments d b).anchor = some d.key := by
  have hz := Document.isZero_key hd
  have hkeys := stands_keys hplaced
  rw [← hkeys] at hanchor hnew
  have hhead : ∀ a, (keys placed).head? = some a → a.isZero = false ∧ a ∉ keys left := by
    intro a ha
    have hmem := mem_of_head? ha
    refine ⟨?_,fun hl => disjoint_of_nodup_append (keys_append _ _ ▸ h.distinct) hl hmem⟩
    rw [hkeys] at hmem
    obtain ⟨e,he,rfl⟩ := mem_map.mp hmem
    exact Document.isZero_key (hds e he)
  have hid : d.id.getD zeroIdentifier = d.key := rfl
  cases hfind : find d.key b.list with
  | none =>
    -- a document the list does not have is added before the anchor
    have hfresh : d.key ∉ keys (left ++ placed) := by
      rw [h.order]
      exact find_eq_none.mp hfind
    have hplace : placeDocument oldDocuments d b =
        { list := insertBefore (d.key,d) b.anchor b.list
          anchor := some d.key
          operations := b.operations ++ [⟨.add,d.key,b.anchor.getD zeroIdentifier,some d⟩] } := by
      simp only [placeDocument,hid,hfind]
    refine ⟨left,d,⟨?_,?_,?_⟩,Alike.refl d,fun e he => he,by rw [hplace]⟩
    · rw [hplace,hanchor]
      dsimp only
      rw [applied_append h.applied,foldlM_cons,applyOperation_add hd hv hz hfresh hhead]
      rfl
    · rw [hplace,hanchor,← insertBefore_cut fun a ha => (hhead a ha).2]
      exact keys_insertBefore_congr h.order
    rw [KeyedList.keys_append,KeyedList.keys_cons]
    refine nodup_middle.mpr (nodup_cons.mpr ⟨?_,?_⟩)
    · rwa [← KeyedList.keys_append]
    · rw [← KeyedList.keys_append]
      exact h.distinct
  | some held =>
    have hmem : d.key ∈ keys left := by
      have hin : d.key ∈ keys (left ++ placed) := by
        rw [h.order]
        by_contra hnot
        rw [find_eq_none.mpr hnot] at hfind
        cases hfind
      rw [KeyedList.keys_append] at hin
      exact (mem_append.mp hin).resolve_right hnew
    obtain ⟨front,v,back,rfl,hfront⟩ := exists_cut hmem
    obtain ⟨o,hold,hoid,hstand⟩ := hleft (d.key,v) (by simp)
    -- the node ends up between what is left and the anchor, moved or not
    have hmove : ∃ moves : List QueryDeltaOperation, ∃ list : QueryDeltaList,
        (if successor d.key b.list = b.anchor then ([] : List QueryDeltaOperation)
          else [{ kind := .move, documentID := d.key, beforeID := b.anchor.getD zeroIdentifier }]) = moves ∧
        (if successor d.key b.list = b.anchor then b.list
          else insertBefore (d.key,held) b.anchor (remove d.key b.list)) = list ∧
        moves.foldlM applyOperation (front ++ (d.key,v) :: back ++ placed) = .ok (front ++ back ++ (d.key,v) :: placed) ∧
        keys (front ++ back ++ (d.key,v) :: placed) = keys list := by
      have hsucc : successor d.key b.list = (keys (back ++ placed)).head? := by
        rw [← successor_congr h.order,append_assoc,cons_append,successor_cut hfront]
      refine ⟨_,_,rfl,rfl,?_⟩
      by_cases hback : back = []
      · subst hback
        have hsettled : successor d.key b.list = b.anchor := by rw [hsucc,hanchor,nil_append]
        rw [if_pos hsettled,if_pos hsettled]
        have hsame : front ++ [(d.key,v)] ++ placed = front ++ [] ++ (d.key,v) :: placed := by simp
        rw [hsame]
        rw [hsame] at h
        exact ⟨rfl,h.order⟩
      have hmoved : ¬ successor d.key b.list = b.anchor := by
        rw [hsucc,hanchor]
        obtain ⟨c,back,rfl⟩ := exists_cons_of_ne_nil hback
        intro hc
        exact (hhead c.1 hc.symm).2 (by simp)
      rw [if_neg hmoved,if_neg hmoved,hanchor]
      refine ⟨?_,?_⟩
      · rw [foldlM_cons,applyOperation_move hz h.distinct hback fun a ha => (hhead a ha).1]
        rfl
      have hcut : insertBefore (d.key,v) (keys placed).head? (remove d.key (front ++ (d.key,v) :: back ++ placed)) =
          front ++ back ++ (d.key,v) :: placed := by
        rw [append_assoc,cons_append,remove_cut hfront,← append_assoc]
        refine insertBefore_cut fun a ha hin => (hhead a ha).2 ?_
        rw [KeyedList.keys_append] at hin ⊢
        exact ((sublist_cons_self d.key (keys back)).append_left _).subset hin
      rw [← hcut]
      exact keys_insertBefore_congr (keys_remove_congr h.order)
    obtain ⟨moves,list,hmoves,hlist,happlied,horder⟩ := hmove
    have hplace : placeDocument oldDocuments d b =
        { list := list
          anchor := some d.key
          operations := b.operations ++ moves ++
            if o.equal d then [] else [{ kind := .change, documentID := d.key, document := some d }] } := by
      simp only [placeDocument,hid,hfind,hmoves,hlist,hold,getD_some]
    have hdistinct : (keys (front ++ back ++ (d.key,v) :: placed)).Nodup := by
      have hperm := h.distinct
      rw [append_assoc,cons_append,KeyedList.keys_append,KeyedList.keys_cons] at hperm
      rw [KeyedList.keys_append,KeyedList.keys_cons,KeyedList.keys_append]
      refine nodup_middle.mpr ?_
      simpa using nodup_middle.mp hperm
    have hgone : d.key ∉ keys (front ++ back) := by
      rw [KeyedList.keys_append,KeyedList.keys_cons] at hdistinct
      exact fun hm => disjoint_of_nodup_append hdistinct hm (by simp)
    have hoid' : o.id = d.id := by rw [Document.id_eq_key hoid,Document.id_eq_key hd,← hstand.1]
    have hrest : ∀ e ∈ front ++ back, e ∈ front ++ (d.key,v) :: back := fun e he =>
      ((sublist_cons_self (d.key,v) back).append_left _).subset he
    by_cases heq : o.equal d
    · rw [if_pos heq,append_nil] at hplace
      refine ⟨front ++ back,v,⟨?_,?_,hdistinct⟩,hstand.2.equal heq hoid',hrest,by rw [hplace]⟩
      · rw [hplace]
        exact (applied_append h.applied).trans happlied
      · rw [hplace]
        exact horder
    rw [if_neg heq] at hplace
    refine ⟨front ++ back,d,⟨?_,?_,?_⟩,Alike.refl d,hrest,by rw [hplace]⟩
    · rw [hplace]
      dsimp only
      rw [applied_append ((applied_append h.applied).trans happlied),foldlM_cons,
        applyOperation_change hd hv hz hgone]
      rfl
    · rw [hplace]
      exact (by simp : keys (front ++ back ++ (d.key,d) :: placed) = keys (front ++ back ++ (d.key,v) :: placed)).trans horder
    · simpa using hdistinct

theorem place_follows (h : Follows start b left)
    (hanchor : b.anchor = none) (hleft : ∀ e ∈ left, Untouched oldDocuments e)
    (hds : ∀ e ∈ ds, e.validID = some e.key ∧ e.validate) (hnodup : (ds.map Document.key).Nodup) :
    ∃ rest placed, Follows start (ds.foldr (placeDocument oldDocuments) b) (rest ++ placed) ∧
      Forall₂ Stands placed ds ∧ (∀ e ∈ rest, e ∈ left) ∧
      (ds.foldr (placeDocument oldDocuments) b).anchor = (ds.map Document.key).head? := by
  induction ds with
  | nil => exact ⟨left,[],by simpa using h,Forall₂.nil,fun e he => he,hanchor⟩
  | cons d ds ih =>
    obtain ⟨hd,hds⟩ := forall_mem_cons.mp hds
    obtain ⟨hnew,hnodup⟩ := nodup_cons.mp hnodup
    obtain ⟨rest,placed,hfollow,hplaced,hrest,hat⟩ := ih hds hnodup
    obtain ⟨rest',v,hfollow',hv,hrest',hat'⟩ := placeDocument_follows hfollow hplaced hat (fun e he => (hds e he).1)
      hd.1 hd.2 hnew fun e he => hleft e (hrest e he)
    exact ⟨rest',(d.key,v) :: placed,hfollow',Forall₂.cons ⟨rfl,hv⟩ hplaced,fun e he => hrest e (hrest' e he),hat'⟩

/-! ### Results of one length in one order -/

theorem sameOrderChanges_applied {held previous next : List Document} (hheld : Forall₂ Alike held previous)
    (hp : ∀ e ∈ previous, e.validID = some e.key) (hn : ∀ e ∈ next, e.validID = some e.key ∧ e.validate)
    (hlength : previous.length = next.length) :
    (sameOrderChanges previous next = .ok none ∧ previous.map Document.key ≠ next.map Document.key) ∨
    ∃ operations, sameOrderChanges previous next = .ok (some operations) ∧
      (documentSlicesEqual previous next = false → operations ≠ []) ∧
      ∀ front, (KeyedList.keys front ++ next.map Document.key).Nodup → ∃ list,
        operations.foldlM applyOperation (front ++ nodesOf held) = .ok (front ++ list) ∧
        Forall₂ Stands list next := by
  induction hheld generalizing next with
  | nil =>
    obtain rfl : next = [] := length_eq_zero_iff.mp hlength.symm
    exact .inr ⟨[],rfl,by simp [documentSlicesEqual],fun front _ => ⟨[],by simp [nodesOf],Forall₂.nil⟩⟩
  | @cons h p held previous hh _ ih =>
    obtain ⟨n,next,rfl⟩ := exists_cons_of_length_eq_add_one hlength.symm
    obtain ⟨hp,hps⟩ := forall_mem_cons.mp hp
    obtain ⟨hn,hns⟩ := forall_mem_cons.mp hn
    by_cases hkey : p.key = n.key
    · have hid : p.id = n.id := by rw [Document.id_eq_key hp,Document.id_eq_key hn.1,hkey]
      rcases ih hps hns (Nat.succ.inj hlength) with ⟨hnone,hne⟩ | ⟨operations,hsome,hchanged,happly⟩
      · refine .inl ⟨?_,fun heq => hne (cons.inj heq).2⟩
        simp [sameOrderChanges,hp,hn.1,hkey,hnone]
      refine .inr ?_
      by_cases hequal : p.equal n
      · refine ⟨operations,by simp [sameOrderChanges,hp,hn.1,hkey,hsome,hequal],?_,fun front hfront => ?_⟩
        · simpa [documentSlicesEqual,hequal] using hchanged
        obtain ⟨list,hlist,hstands⟩ := happly (front ++ [(n.key,h)]) (by simpa using hfront)
        refine ⟨(n.key,h) :: list,?_,Forall₂.cons ⟨rfl,hh.equal hequal hid⟩ hstands⟩
        simpa [nodesOf,hh.key,hkey] using hlist
      refine ⟨{ kind := .change, documentID := n.key, document := some n } :: operations,
        by simp [sameOrderChanges,hp,hn.1,hkey,hsome,hequal],by simp,fun front hfront => ?_⟩
      obtain ⟨list,hlist,hstands⟩ := happly (front ++ [(n.key,n)]) (by simpa using hfront)
      refine ⟨(n.key,n) :: list,?_,Forall₂.cons ⟨rfl,Alike.refl n⟩ hstands⟩
      have hgone : n.key ∉ keys front := fun hm => disjoint_of_nodup_append hfront hm (by simp)
      have hnodes : nodesOf (h::held) = (n.key,h) :: nodesOf held := by simp [nodesOf,hh.key,hkey]
      rw [hnodes,foldlM_cons,applyOperation_change hn.1 hn.2 (Document.isZero_key hn.1) hgone]
      simpa using hlist
    · refine .inl ⟨by simp [sameOrderChanges,hp,hn.1,hkey],fun heq => hkey (cons.inj heq).1⟩

end operations

/-- The delta between two results turns whatever a subscriber may hold for the
first into what it may hold for the second. -/
theorem buildSharedQueryDelta_applied {previous next : List Document} (hp : ValidResult previous)
    (hn : ValidResult next) (hheld : Forall₂ Alike held previous) (token : ℕ) :
    ∃ operations, buildSharedQueryDelta previous next token = .ok ⟨token,operations⟩ ∧
      (documentSlicesEqual previous next = false → operations ≠ []) ∧
      ∃ list, operations.foldlM applyOperation (nodesOf held) = .ok list ∧ Forall₂ Stands list next := by
  have hnext : ∀ e ∈ next, e.validID = some e.key ∧ e.validate := fun e he => ⟨hn.ids e he,hn.valid e he⟩
  have hself : ∀ documents : List Document, Forall₂ Alike documents documents := fun documents =>
    forall₂_same.mpr fun d _ => Alike.refl d
  by_cases hfast : ∃ operations, previous.length = next.length ∧ sameOrderChanges previous next = .ok (some operations)
  · obtain ⟨operations,hlength,hsome⟩ := hfast
    rcases sameOrderChanges_applied hheld hp.ids hnext hlength with ⟨hnone,-⟩ | ⟨operations',hsome',hchanged,happly⟩
    · rw [hnone] at hsome
      cases hsome
    obtain ⟨list,hlist,hstands⟩ := happly [] (by simpa using hn.distinct)
    refine ⟨operations',?_,hchanged,list,by simpa using hlist,hstands⟩
    simp [buildSharedQueryDelta,unmovedChanges,hlength,hsome']
  -- the results differ in length or order
  have horder : previous.map Document.key ≠ next.map Document.key := by
    intro heq
    have hlength : previous.length = next.length := by simpa using congrArg length heq
    rcases sameOrderChanges_applied hheld hp.ids hnext hlength with ⟨-,hne⟩ | ⟨operations,hsome,-⟩
    · exact hne heq
    · exact hfast ⟨operations,hlength,hsome⟩
  have hslow : unmovedChanges previous next = .ok none := by
    unfold unmovedChanges
    by_cases hlength : previous.length = next.length
    · rw [if_pos hlength]
      rcases sameOrderChanges_applied hheld hp.ids hnext hlength with ⟨hnone,-⟩ | ⟨operations,hsome,-⟩
      · exact hnone
      · exact absurd ⟨operations,hlength,hsome⟩ hfast
    · rw [if_neg hlength]
  have hkeys : KeyedList.keys (nodesOf held) = KeyedList.keys (nodesOf previous) := by simp [alike_keys hheld]
  have hbegin : Follows (nodesOf held) { list := nodesOf previous } (nodesOf held) :=
    ⟨rfl,hkeys,by rw [hkeys,keys_nodesOf]; exact hp.distinct⟩
  obtain ⟨left,hremoved,hleft,hin,hanchor⟩ := removeStale_follows (nodesOf next) (nodesOf previous)
    hbegin (fun e he => he) (by rw [keys_nodesOf]; exact hp.distinct)
    (fun k hk => by
      rw [hkeys]
      refine ⟨hk,?_⟩
      rw [keys_nodesOf] at hk
      obtain ⟨e,he,rfl⟩ := mem_map.mp hk
      exact Document.isZero_key (hp.ids e he))
    (fun k hk => .inr (hkeys ▸ hk))
  have huntouched : ∀ e ∈ left, Untouched (nodesOf previous) e := by
    intro e he
    obtain ⟨h,hh,rfl⟩ := mem_map.mp (hleft e he)
    obtain ⟨o,ho,halike⟩ := alike_exists hheld h hh
    refine ⟨o,?_,hp.ids o ho,halike.key,halike⟩
    rw [halike.key]
    exact KeyedList.find_of_mem (by rw [keys_nodesOf]; exact hp.distinct) (mem_map.mpr ⟨o,ho,rfl⟩)
  obtain ⟨rest,placed,hplaced,hstands,hrest,-⟩ := place_follows hremoved hanchor huntouched hnext hn.distinct
  have hempty : rest = [] := by
    refine eq_nil_iff_forall_not_mem.mpr fun e he => ?_
    have hmem : e.1 ∈ KeyedList.keys (nodesOf next) := hin e.1 (KeyedList.mem_keys.mpr ⟨e.2,hrest e he⟩)
    rw [keys_nodesOf,← stands_keys hstands] at hmem
    exact disjoint_of_nodup_append (KeyedList.keys_append _ _ ▸ hplaced.distinct)
      (KeyedList.mem_keys.mpr ⟨e.2,he⟩) hmem
  have happlied := hplaced.applied
  rw [hempty,nil_append] at happlied
  refine ⟨_,?_,fun _ hnone => ?_,placed,happlied,hstands⟩
  · rw [buildSharedQueryDelta,hslow,ok_bind]
    dsimp only
    rw [newQueryDeltaList_eq hp (hself previous),newQueryDeltaList_eq hn (hself next)]
    rfl
  rw [hnone] at happlied
  have hnodes : nodesOf held = placed := Except.ok.inj happlied
  refine horder ?_
  rw [← alike_keys hheld,← keys_nodesOf held,hnodes,stands_keys hstands]

theorem stands_documents (h : Forall₂ Stands list documents) :
    Forall₂ Alike (list.map snd) documents := by
  rw [forall₂_map_left_iff]
  exact h.imp fun _ _ hs => hs.2

theorem applyQueryDelta_built {next : List Document} (hp : ValidResult previous)
    (hn : ValidResult next) (hheld : Forall₂ Alike held previous)
    (hchanged : documentSlicesEqual previous next = false) (htoken : fromToken < token) :
    ∃ delta documents, buildSharedQueryDelta previous next token = .ok delta ∧ delta.token = token ∧
      applyQueryDelta ⟨fromToken,held⟩ (cloneSharedQueryDelta delta fromToken) = .ok ⟨token,documents⟩ ∧
      Forall₂ Alike documents next := by
  obtain ⟨operations,hbuild,hne,list,hlist,hstands⟩ := buildSharedQueryDelta_applied hp hn hheld token
  refine ⟨_,list.map snd,hbuild,rfl,?_,stands_documents hstands⟩
  have hguard : ¬ (fromToken ≠ fromToken ∨ token ≤ fromToken ∨ operations.isEmpty) := by
    simpa using ⟨htoken,hne hchanged⟩
  have happly : applyQueryDelta ⟨fromToken,held⟩ (cloneSharedQueryDelta ⟨token,operations⟩ fromToken) =
      newQueryDeltaList held >>= fun list => operations.foldlM applyOperation list >>= fun list =>
        .ok ⟨token,list.map snd⟩ := if_neg hguard
  rw [happly,newQueryDeltaList_eq hp hheld,ok_bind,hlist,ok_bind]

/-! ### Intermediate results -/

theorem applyOperation_length (h : applyOperation list operation = .ok list') :
    if operation.kind = .remove then list'.length ≤ list.length else list.length ≤ list'.length := by
  unfold applyOperation at h
  dsimp only at h
  generalize (if operation.beforeID.isZero then none else some operation.beforeID) = anchor at h
  obtain ⟨-,h⟩ := guard_eq_ok.mp h
  obtain ⟨-,h⟩ := guard_eq_ok.mp h
  split at h
  · rename_i hkind
    split_ifs at h
    cases h
    simpa [hkind] using (KeyedList.length_remove _ _).1
  · rename_i hkind _ _
    split_ifs at h
    cases h
    simp [hkind,KeyedList.length_insertBefore]
  · cases h
  · rename_i hkind _ _
    split_ifs at h
    cases h
    simpa [hkind,KeyedList.length_insertBefore] using (KeyedList.length_remove _ _).2
  · cases h
  · rename_i hkind _ _
    split_ifs at h
    cases h
    simp [hkind,KeyedList.length_replace]
  · cases h

/-- Every removal comes before every other operation. -/
def RemovesFirst (operations : List QueryDeltaOperation) : Prop :=
  ∃ removals edits, operations = removals ++ edits ∧ (∀ o ∈ removals, o.kind = .remove) ∧ ∀ o ∈ edits, o.kind ≠ .remove

theorem RemovesFirst.length_le (h : RemovesFirst (done ++ rest)) (hdone : done.foldlM applyOperation list = .ok middle)
    (hrest : rest.foldlM applyOperation middle = .ok last) : middle.length ≤ max list.length last.length := by
  obtain ⟨removals,edits,heq,hremovals,hedits⟩ := h
  rcases append_eq_append_iff.mp heq with ⟨more,rfl,-⟩ | ⟨more,-,rfl⟩
  · -- only removals so far
    refine le_max_of_le_left (foldlM_invariant (I := fun l : QueryDeltaList => l.length ≤ list.length)
      (fun l o ho l' hl hstep => le_trans ?_ hl) le_rfl hdone)
    simpa [hremovals o (mem_append_left _ ho)] using applyOperation_length hstep
  refine le_max_of_le_right (foldlM_invariant (I := fun l : QueryDeltaList => middle.length ≤ l.length)
    (fun l o ho l' hl hstep => le_trans hl ?_) le_rfl hrest)
  simpa [hedits o (mem_append_right _ ho)] using applyOperation_length hstep

theorem sameOrderChanges_kind {next : List Document}
    (h : sameOrderChanges previous next = .ok (some operations)) : ∀ o ∈ operations, o.kind ≠ .remove := by
  induction previous generalizing next operations with
  | nil =>
    cases h
    simp
  | cons p previous ih =>
    cases next with
    | nil =>
      cases h
      simp
    | cons n next =>
      rw [sameOrderChanges] at h
      split at h
      · split at h
        · cases h
        obtain ⟨rest,hrest,h⟩ := bind_eq_ok.mp h
        obtain ⟨others,rfl,rfl⟩ := map_eq_some_iff.mp (Except.ok.inj h)
        split_ifs
        · exact ih hrest
        · exact forall_mem_cons.mpr ⟨by simp,ih hrest⟩
      · cases h

theorem placeDocument_kind (oldDocuments : QueryDeltaList) (d : Document) (b : DeltaBuild) :
    ∃ edits, (placeDocument oldDocuments d b).operations = b.operations ++ edits ∧ ∀ o ∈ edits, o.kind ≠ .remove := by
  unfold placeDocument
  dsimp only
  split
  · exact ⟨_,rfl,by simp⟩
  · refine ⟨_,append_assoc _ _ _,?_⟩
    split_ifs <;> simp

theorem buildSharedQueryDelta_removesFirst {next : List Document}
    (h : buildSharedQueryDelta previous next token = .ok delta) : RemovesFirst delta.operations := by
  obtain ⟨changes,hchanges,h⟩ := bind_eq_ok.mp h
  cases changes with
  | some operations =>
    cases h
    unfold unmovedChanges at hchanges
    split_ifs at hchanges
    · exact ⟨[],operations,rfl,by simp,sameOrderChanges_kind hchanges⟩
    · cases hchanges
  | none =>
    obtain ⟨oldList,-,h⟩ := bind_eq_ok.mp h
    obtain ⟨nextDocuments,-,h⟩ := bind_eq_ok.mp h
    cases h
    have hremoved : ∀ (todo : QueryDeltaList) (b : DeltaBuild), (∀ o ∈ b.operations, o.kind = .remove) →
        ∀ o ∈ (todo.foldl (removeStale nextDocuments) b).operations, o.kind = .remove := by
      intro todo
      induction todo with
      | nil => exact fun b hb => hb
      | cons node todo ih =>
        refine fun b hb => ih _ ?_
        unfold removeStale
        split_ifs
        · exact hb
        · simpa [or_imp,forall_and] using hb
    have hplaced : ∀ (ds : List Document) (b : DeltaBuild), ∃ edits,
        (ds.foldr (placeDocument oldList) b).operations = b.operations ++ edits ∧ ∀ o ∈ edits, o.kind ≠ .remove := by
      intro ds b
      induction ds with
      | nil => exact ⟨[],by simp,by simp⟩
      | cons d ds ih =>
        obtain ⟨edits,heq,hedits⟩ := ih
        obtain ⟨more,hmore,hkinds⟩ := placeDocument_kind oldList d (ds.foldr (placeDocument oldList) b)
        refine ⟨edits ++ more,?_,fun o ho => (mem_append.mp ho).elim (hedits o) (hkinds o)⟩
        rw [foldr_cons,hmore,heq,append_assoc]
    obtain ⟨edits,heq,hedits⟩ := hplaced next (oldList.foldl (removeStale nextDocuments) { list := oldList })
    exact ⟨_,edits,heq,hremoved oldList _ (by simp),hedits⟩

/-- The delta between two results that differ applies to the first without being
rejected, leads to the second, and passes no result longer than both. -/
theorem query_delta_round_trip {previous next : List Document} (hp : ValidResult previous) (hn : ValidResult next)
    (hchanged : documentSlicesEqual previous next = false) {fromToken token : ℕ} (htoken : fromToken < token) :
    ∃ delta documents, buildSharedQueryDelta previous next token = .ok delta ∧
      applyQueryDelta ⟨fromToken,previous⟩ (cloneSharedQueryDelta delta fromToken) = .ok ⟨token,documents⟩ ∧
      Forall₂ Alike documents next ∧
      ∀ done rest, delta.operations = done ++ rest → ∃ list, done.foldlM applyOperation (nodesOf previous) = .ok list ∧
        list.length ≤ max previous.length next.length := by
  have hself : Forall₂ Alike previous previous := forall₂_same.mpr fun d _ => Alike.refl d
  obtain ⟨operations,hbuild,hne,last,hlast,hstands⟩ := buildSharedQueryDelta_applied hp hn hself token
  obtain ⟨delta,documents,hbuild',-,happly,halike⟩ := applyQueryDelta_built hp hn hself hchanged htoken
  obtain rfl := Except.ok.inj (hbuild.symm.trans hbuild')
  refine ⟨_,documents,hbuild,happly,halike,fun done rest heq => ?_⟩
  rw [show operations = done ++ rest from heq,foldlM_append] at hlast
  obtain ⟨list,hdone,hrest⟩ := bind_eq_ok.mp hlast
  have hlength := (heq ▸ buildSharedQueryDelta_removesFirst hbuild).length_le hdone hrest
  rw [hstands.length_eq] at hlength
  exact ⟨list,hdone,by simpa [nodesOf] using hlength⟩

def documentNumbered (n : Storage.Byte) : Document := [(idField,.id (.ending n))]

theorem numbered_round_trip : ∃ delta documents,
    buildSharedQueryDelta [documentNumbered 1,documentNumbered 2] [documentNumbered 2,documentNumbered 3] 1 = .ok delta ∧
      applyQueryDelta ⟨0,[documentNumbered 1,documentNumbered 2]⟩ (cloneSharedQueryDelta delta 0) = .ok ⟨1,documents⟩ ∧
      Forall₂ Alike documents [documentNumbered 2,documentNumbered 3] := by
  have hvalid : ValidResult [documentNumbered 1,documentNumbered 2] ∧ ValidResult [documentNumbered 2,documentNumbered 3] :=
    ⟨⟨by decide,by decide,by decide⟩,by decide,by decide,by decide⟩
  obtain ⟨delta,documents,hbuild,happly,halike,-⟩ := query_delta_round_trip hvalid.1 hvalid.2 (by decide) Nat.zero_lt_one
  exact ⟨delta,documents,hbuild,happly,halike⟩

end Meldbase.Database
