import Meldbase.Storage.TreeSession

/-! # When a document record cannot be stored

Primary trees map 16 byte document ids to records of at most 24 + 8192 bytes.
Branches of such a tree always split.  A leaf splits unless one of its records
overflows a page both together with everything before it and together with
everything after it; `Put` then fails although the record itself is small enough.
-/
namespace Meldbase.Storage
open List
open Entries ListSurgery Outcome TreeCodec

def Wedged (bound : ℕ) (costs : List ℕ) : Prop :=
  ∃ a x b, costs = a ++ x::b ∧ bound < (a ++ [x]).sum ∧ bound < (x::b).sum

theorem exists_first_overflow {costs : List ℕ} (h : bound < costs.sum) :
    ∃ a x b, costs = a ++ x::b ∧ a.sum ≤ bound ∧ bound < (a ++ [x]).sum := by
  induction costs using List.reverseRecOn with
  | nil => simp at h
  | append_singleton l y ih =>
    by_cases hl : bound < l.sum
    · obtain ⟨a,x,b,rfl,ha,hx⟩ := ih hl
      exact ⟨a,x,b ++ [y],by simp,ha,hx⟩
    · exact ⟨l,y,[],rfl,by omega,h⟩

/-- Small elements have no fitting two-way cut exactly when one of them is wedged. -/
theorem wedged_iff {costs : List ℕ} (hsmall : ∀ x ∈ costs, x ≤ bound) :
    Wedged bound costs ↔ bound < costs.sum ∧
      ∀ i, 0 < i → i < costs.length → ¬ ((costs.take i).sum ≤ bound ∧ (costs.drop i).sum ≤ bound) := by
  constructor
  · rintro ⟨a,x,b,rfl,hleft,hright⟩
    refine ⟨by simp only [sum_append,sum_cons] at *; omega,fun i _ _ => ?_⟩
    rcases Nat.lt_or_ge a.length i with hi | hi
    · -- the left half contains the element and its prefix
      obtain ⟨n,rfl⟩ := Nat.exists_eq_add_of_lt hi
      have htake : (a ++ x::b).take (a.length+n+1) = a ++ [x] ++ b.take n := by
        rw [take_append,take_of_length_le (by omega)]
        simp [Nat.add_assoc]
      rw [htake,sum_append]
      omega
    have hdrop : (a ++ x::b).drop i = a.drop i ++ x::b := drop_append_of_le_length hi
    rw [hdrop,sum_append]
    omega
  rintro ⟨hsum,hcut⟩
  obtain ⟨a,x,b,rfl,ha,hx⟩ := exists_first_overflow hsum
  refine ⟨a,x,b,rfl,hx,?_⟩
  have hpos : 0 < a.length := by
    refine length_pos_iff.mpr ?_
    rintro rfl
    have := hsmall x (by simp)
    simp at hx
    omega
  have := hcut a.length hpos (by simp)
  simp only [take_left,drop_left] at this
  omega

variable {B K V : Type} [LinearOrder K] {es : List (Bytes × Bytes)} {tx : WriteTxn TreePage} {kind : TreeKind}

def TreeCodec.targetLeaf (c : TreeCodec B K V) (tx : WriteTxn B) (kind : TreeKind) :
    ℕ → NodeRef K V → K → Except StorageError (List (K × V))
  | 0, _, _ => .error .corrupt
  | depth+1, ref, key => do
    match ← c.load tx kind ref with
    | .leaf entries _ => return entries
    | .branch keys children _ =>
      match children[childIndex keys key]? with
      | none => .error .corrupt
      | some child => targetLeaf c tx kind depth child key
def leafRoom : ℕ := pageCapacity - 32
def IsRecord (e : Bytes × Bytes) : Prop := e.1.length = 16 ∧ e.2.length ≤ 24+8192

theorem IsRecord.valid (h : IsRecord e) : bytesCodec.ValidKey e.1 := by
  unfold ValidKey bytesCodec
  have := h.1
  dsimp only
  omega

theorem IsRecord.leafCost_le (h : IsRecord e) : bytesCodec.leafCost e ≤ leafRoom := by
  obtain ⟨hk,hv⟩ := h
  unfold leafCost leafLength bytesCodec leafRoom pageCapacity pageSize pageHeaderSize
  dsimp only
  omega

theorem finishLeaf_eq_error (hrec : ∀ e ∈ es, IsRecord e) :
    (∃ err, bytesCodec.finishLeaf es n = .error err) ↔ Wedged leafRoom (es.map bytesCodec.leafCost) := by
  have hroom : leafRoom+32 = pageCapacity := by simp [leafRoom,pageCapacity,pageSize,pageHeaderSize]
  have hvalid : ∀ e ∈ es, bytesCodec.ValidKey e.1 := fun e he => (hrec e he).valid
  have hsize : ∀ e ∈ es, bytesCodec.leafEntryEncodedSize e = .ok (bytesCodec.leafLength e) := fun e he =>
    bytesCodec.leafEntryEncodedSize_of_valid (hvalid e he) (by
      have := (hrec e he).leafCost_le
      unfold leafCost at this
      omega)
  have hfits : bytesCodec.nodeFits (.leaf es n : TreeNode Bytes Bytes (NodeRef Bytes Bytes)) = true ↔
      (es.map bytesCodec.leafCost).sum ≤ leafRoom := by
    rw [bytesCodec.nodeFits_leaf]
    constructor
    · rintro ⟨-,h⟩; omega
    · intro h; exact ⟨hvalid,by omega⟩
  have hnone : bytesCodec.byteBalancedLeafSplit es = none ↔ ∀ i, 0 < i → i < (es.map bytesCodec.leafCost).length →
      ¬ (((es.map bytesCodec.leafCost).take i).sum ≤ leafRoom ∧ ((es.map bytesCodec.leafCost).drop i).sum ≤ leafRoom) := by
    rw [bytesCodec.byteBalancedLeafSplit_eq_none hsize]
    simp only [length_map,map_take,map_drop]
    refine forall_congr' (fun i => forall_congr' (fun _ => forall_congr' (fun _ => not_congr ?_)))
    omega
  rw [wedged_iff (forall_mem_map.mpr (fun e he => (hrec e he).leafCost_le)),← hnone]
  unfold finishLeaf
  by_cases hfit : bytesCodec.nodeFits (.leaf es n : TreeNode Bytes Bytes (NodeRef Bytes Bytes)) = true
  · have := hfits.mp hfit
    simp [hfit,Nat.not_lt.mpr this]
  have hover : leafRoom < (es.map bytesCodec.leafCost).sum := by rw [hfits] at hfit; omega
  simp only [hfit,hover,true_and]
  cases hsplit : bytesCodec.byteBalancedLeafSplit es with
  | none => simp
  | some middle =>
    obtain ⟨-,hn,-⟩ := bytesCodec.byteBalancedLeafSplit_spec hsplit
    obtain ⟨first,rest,hdrop⟩ := exists_cons_of_ne_nil (show es.drop middle ≠ [] by simp; omega)
    simp [hdrop]

theorem sum_branchCost {keys : List Bytes} (hkeys : ∀ k ∈ keys, k.length = 16) :
    (keys.map bytesCodec.branchCost).sum = keys.length*42 := by
  induction keys with
  | nil => rfl
  | cons k keys ih =>
    obtain ⟨hk,hrest⟩ := forall_mem_cons.mp hkeys
    have hcost : bytesCodec.branchCost k = 42 := by
      unfold branchCost branchLength bytesCodec
      dsimp only
      omega
    rw [map_cons,sum_cons,ih hrest,hcost,length_cons]
    omega

/-- A branch over document ids with one separator too many always splits. -/
theorem finishBranch_ids {keys : List Bytes}
    (hkeys : ∀ k ∈ keys, k.length = 16) (hlen : children.length = keys.length+1) (hcount : keys.length ≤ 388) :
    ∃ edited, bytesCodec.finishBranch keys children n = .ok edited := by
  have hvalid : ∀ k ∈ keys, bytesCodec.ValidKey k := fun k hk => by
    have := hkeys k hk
    unfold ValidKey bytesCodec
    dsimp only
    omega
  unfold finishBranch
  by_cases hfit : bytesCodec.nodeFits (.branch keys children n : TreeNode Bytes Bytes (NodeRef Bytes Bytes)) = true
  · simp only [hfit,if_true]
    exact ⟨_,rfl⟩
  have hover : ¬ (32+keys.length*42 ≤ pageCapacity) := fun h =>
    hfit (bytesCodec.nodeFits_branch.mpr ⟨hlen,hvalid,by rw [sum_branchCost hkeys]; exact h⟩)
  have hmany : 300 < keys.length := by
    unfold pageCapacity pageSize pageHeaderSize at hover
    omega
  have hsome : bytesCodec.byteBalancedBranchSplit keys children ≠ none := by
    rw [ne_eq,bytesCodec.byteBalancedBranchSplit_eq_none hvalid (by rintro rfl; simp at hmany) hlen]
    intro hno
    refine hno (keys.length / 2) (by omega) ⟨?_,?_⟩
    · rw [sum_branchCost (fun k hk => hkeys k (mem_of_mem_take hk)),length_take]
      unfold pageCapacity pageSize pageHeaderSize
      omega
    rw [sum_branchCost (fun k hk => hkeys k (mem_of_mem_drop hk)),length_drop]
    unfold pageCapacity pageSize pageHeaderSize
    omega
  obtain ⟨middle,hmid⟩ := Option.ne_none_iff_exists'.mp hsome
  have hlt := (bytesCodec.byteBalancedBranchSplit_spec hmid).1
  simp only [hfit,hmid,List.getElem?_eq_getElem hlt]
  exact ⟨_,rfl⟩

theorem separators_ids {keys : List Bytes} (hsep : Separates keys pieces)
    (hrec : ∀ e ∈ pieces.flatten, IsRecord e) : ∀ k ∈ keys, k.length = 16 := by
  intro k hk
  obtain ⟨i,hi,rfl⟩ := getElem_of_mem hk
  have hi' : i < pieces.tail.length := hsep.2.length_eq ▸ hi
  obtain ⟨v,rest,hp⟩ := Forall₂.get hsep.2 hi hi'
  have hmem : (keys[i],v) ∈ pieces.flatten := by
    refine mem_flatten.mpr ⟨_,mem_of_mem_tail (get_mem _ ⟨i,hi'⟩),?_⟩
    rw [hp]
    exact mem_cons_self
  exact (hrec _ hmem).1

theorem put_eq_error_iff (hd : h < depth) (hr : Represents bytesCodec tx kind h ref es) (hrec : ∀ e ∈ es, IsRecord e)
    (hnew : IsRecord (key,value)) :
    (∃ err, bytesCodec.put tx kind depth ref key value = .error err) ↔
      ∃ leaf, bytesCodec.targetLeaf tx kind depth ref key = .ok leaf ∧
        Wedged leafRoom ((Entries.insert leaf key value).map bytesCodec.leafCost) := by
  induction h generalizing depth ref es with
  | zero =>
    obtain ⟨depth,rfl⟩ := exists_depth hd
    obtain ⟨hv,ho,-⟩ := hr
    have hall : ∀ e ∈ Entries.insert es key value, IsRecord e := by
      intro e he
      rcases mem_insert.mp he with rfl | ⟨he,-⟩
      · exact hnew
      · exact hrec e he
    simp only [TreeCodec.put,targetLeaf,hv.loads,ok_bind,putEntry_eq ho,pure_eq_ok,Except.ok.injEq,
      exists_eq_left']
    exact finishLeaf_eq_error hall
  | succ h ih =>
    obtain ⟨depth,rfl⟩ := exists_depth hd
    obtain ⟨keys,children,pieces,hv,hp,rfl,hfit⟩ := hr.parts
    have hids := separators_ids hp.separates hrec
    rw [sum_branchCost hids] at hfit
    obtain ⟨pl,m,pr,rfl,hidx,hlt,hgt,hmin⟩ := hp.separates.route hp.ordered key
    obtain ⟨kl,kr,cl,child,cr,rfl,rfl,hctx,hfront,hchild,-⟩ := hp.cut
    have hcl : childIndex (kl ++ kr) key = cl.length := hidx.symm.trans hctx.childrenLength.symm
    have hrecm : ∀ e ∈ m, IsRecord e := fun e he => hrec e (by simp [he])
    have hchildIff := ih (show h < depth by omega) hchild hrecm
    simp only [TreeCodec.put,targetLeaf,hv.loads,ok_bind,hcl,getElem?_length_append,List.head?_cons]
    rw [← hchildIff]
    cases hput : bytesCodec.put tx kind depth child key value with
    | error e => simp
    | ok edited =>
      have hheld : EditedHolds bytesCodec tx kind h (Entries.insert m key value) edited := by
        simpa [hput] using put_spec (show h < depth by omega) hchild hnew.valid value
      obtain ⟨keys',children',pieces',hrepl,hparts,hfl,hlen,-⟩ :=
        hctx.put_child hfront hchild hp.ordered hlt hgt hmin hheld
      have hall : ∀ e ∈ pieces'.flatten, IsRecord e := by
        intro e he
        rw [hfl] at he
        rcases mem_insert.mp he with rfl | ⟨he,-⟩
        · exact hnew
        · exact hrec e he
      have hmany : keys'.length ≤ 388 := by
        unfold pageCapacity pageSize pageHeaderSize at hfit
        omega
      obtain ⟨edited',hok⟩ := finishBranch_ids (n := (pl ++ m::pr).flatten.length+editedCount edited - child.count)
        (separators_ids hparts.separates hall) hparts.length_eq hmany
      simp only [ok_bind,hrepl,hok,reduceCtorEq,exists_false]

/-- Operations of a primary tree: ids and records within the inline limit. -/
def TreeOp.IsDocument : TreeOp TreePage Bytes Bytes → Prop
  | .put key value => IsRecord (key,value)
  | .delete key => key.length = 16
  | _ => True

theorem mapOf_records (hops : ∀ op ∈ ops, op.IsDocument) :
    (∀ e ∈ (mapOf ops).current.entries, IsRecord e) ∧ ∀ m ∈ (mapOf ops).flushed, ∀ e ∈ m.entries, IsRecord e := by
  induction ops using List.reverseRecOn with
  | nil => simp [mapOf,show (∅ : SortedMap Bytes Bytes).entries = [] from rfl]
  | append_singleton ops op ih =>
    obtain ⟨hops,hop⟩ := forall_mem_append.mp hops
    obtain ⟨hcur,hfl⟩ := ih hops
    have hop := hop op (by simp)
    rw [mapOf,foldl_append]
    generalize hgen : ops.foldl MapSession.step ⟨∅,[]⟩ = a
    have hcur : ∀ e ∈ a.current.entries, IsRecord e := by rw [← hgen]; exact hcur
    have hfl : ∀ m ∈ a.flushed, ∀ e ∈ m.entries, IsRecord e := by rw [← hgen]; exact hfl
    have hold : ∀ index : ℕ, ∀ e ∈ ((a.flushed[index]?).getD a.current).entries, IsRecord e := by
      intro index
      cases hidx : a.flushed[index]? with
      | none => exact hcur
      | some m => exact hfl m (mem_of_getElem? hidx)
    cases op with
    | put key value =>
      refine ⟨fun e he => ?_,hfl⟩
      rcases mem_insert.mp he with rfl | ⟨he,-⟩
      · exact hop
      · exact hcur e he
    | delete key => exact ⟨fun e he => hcur e (mem_erase.mp he).1,hfl⟩
    | flush => exact ⟨hcur,forall_mem_append.mpr ⟨hfl,by simpa using hcur⟩⟩
    | reopen index => exact ⟨hold index,hfl⟩
    | stage body => exact ⟨hcur,hfl⟩
    | nextTransaction index => exact ⟨hold index,by simpa [MapSession.step] using hold index⟩

/-- In every reached primary tree, storing a record that is within the inline limit avoids `nodeFull`
exactly when no record of the edited leaf is wedged between the records around it. -/
theorem primary_put_storable_iff {tx0 : WriteTxn TreePage} {tree0 : MutableTree Bytes Bytes}
    {ops : List (TreeOp TreePage Bytes Bytes)} {s : TreeSession TreePage Bytes Bytes} {key value : Bytes}
    (hwf : tx0.WellFormed) (hopen : MutableTree.openTree bytesCodec tx0 0 .primary = .ok tree0)
    (hrun : TreeSession.Run bytesCodec .primary ⟨tx0,tree0,[]⟩ ops s) (hops : ∀ op ∈ ops, op.IsDocument)
    (hnew : IsRecord (key,value)) :
    s.tree.put bytesCodec s.tx key value ≠ .error .nodeFull ↔
      ∀ leaf, bytesCodec.targetLeaf s.tx .primary s.tree.depth s.tree.root key = .ok leaf →
        ¬ Wedged leafRoom ((Entries.insert leaf key value).map bytesCodec.leafCost) := by
  have hsim := TreeSession.Run.simulates hwf hopen hrun
  obtain ⟨h,hd,hr⟩ := hsim.holds
  have hiff := put_eq_error_iff hd hr (mapOf_records hops).1 hnew
  have hspec := put_spec hd hr hnew.valid value
  have hkey : bytesCodec.checkKey key = .ok () := by
    obtain ⟨hlo,hhi⟩ := hnew.valid
    exact if_neg (not_or.mpr ⟨hlo,not_lt.mpr hhi⟩)
  have hput : s.tree.put bytesCodec s.tx key value = .error .nodeFull ↔
      ∃ err, bytesCodec.put s.tx s.tree.kind s.tree.depth s.tree.root key value = .error err := by
    unfold MutableTree.put
    rw [hkey,ok_bind]
    cases hres : bytesCodec.put s.tx s.tree.kind s.tree.depth s.tree.root key value with
    | error e =>
      rw [hres] at hspec
      simp [show e = .nodeFull from hspec]
    | ok edited =>
      obtain ⟨left,split⟩ := edited
      cases split <;> simp
  rw [ne_eq,hput,hiff,hsim.kind_eq]
  push Not
  rfl

theorem put_one_leaf (tx : WriteTxn TreePage) (kind : TreeKind) (ho : Ordered es)
    (key value : Bytes) :
    bytesCodec.put tx kind 1 (.loaded (.leaf es es.length)) key value =
      bytesCodec.finishLeaf (Entries.insert es key value) (Entries.insert es key value).length := by
  simp only [TreeCodec.put,TreeCodec.load,ok_bind,putEntry_eq ho]

theorem finishLeaf_of_sum_le (hrec : ∀ e ∈ es, IsRecord e)
    (hsum : (es.map bytesCodec.leafCost).sum ≤ leafRoom) :
    bytesCodec.finishLeaf es n = .ok (.loaded (.leaf es n),none) := by
  have hfit : bytesCodec.nodeFits (.leaf es n : TreeNode Bytes Bytes (NodeRef Bytes Bytes)) = true := by
    refine bytesCodec.nodeFits_leaf.mpr ⟨fun e he => (hrec e he).valid,?_⟩
    unfold leafRoom pageCapacity pageSize pageHeaderSize at *
    omega
  simp [finishLeaf,hfit]

/-- A document whose id ends in `n` and whose record has `length` bytes. -/
def document (n : Byte) (length : ℕ) : Bytes × Bytes := (List.replicate 15 0 ++ [n],List.replicate length 0)

theorem document_isRecord (n : Byte) {length : ℕ} (h : length ≤ 24+8192) : IsRecord (document n length) :=
  ⟨rfl,by simpa [document] using h⟩

theorem document_leafCost (n : Byte) (length : ℕ) : bytesCodec.leafCost (document n length) = 30+length := by
  simp only [leafCost,leafLength,bytesCodec,document,length_append,length_replicate,
    length_singleton]
  omega

theorem checkKey_of_isRecord (h : IsRecord e) : bytesCodec.checkKey e.1 = .ok () :=
  if_neg (not_or.mpr ⟨h.valid.1,not_lt.mpr h.valid.2⟩)

theorem insert_between {low middle high : Bytes × Bytes} (hlm : low.1 < middle.1) (hmh : middle.1 < high.1) :
    Entries.insert [low,high] middle.1 middle.2 = [low,middle,high] := by
  simp [Entries.insert,below,above,hlm,hmh,hlm.not_gt,hmh.not_gt]

/-- Two records that share a leaf. -/
theorem run_pair (tx : WriteTxn TreePage) (hlow : IsRecord low) (hhigh : IsRecord high) (hlt : low.1 < high.1)
    (hpair : bytesCodec.leafCost low + bytesCodec.leafCost high ≤ leafRoom) : Ordered [low,high] ∧
    ∃ s, TreeSession.Run bytesCodec .primary ⟨tx,⟨.primary,.loaded (.leaf [] 0),1⟩,[]⟩
        ([] ++ [.put low.1 low.2] ++ [.put high.1 high.2]) s ∧
      s.tx = tx ∧ s.tree = ⟨.primary,.loaded (.leaf [low,high] 2),1⟩ := by
  have h1 : Entries.insert [] low.1 low.2 = [low] := rfl
  have h2 : Entries.insert [low] high.1 high.2 = [low,high] := by
    simp [Entries.insert,below,above,hlt,hlt.not_gt]
  have ho1 : Ordered [low] := pairwise_singleton _ _
  have hput1 := put_one_leaf tx .primary ordered_nil low.1 low.2
  have hput2 := put_one_leaf tx .primary ho1 high.1 high.2
  rw [h1,finishLeaf_of_sum_le (by simpa using hlow) (by simp; omega)] at hput1
  rw [h2,finishLeaf_of_sum_le (by simpa using ⟨hlow,hhigh⟩) (by simpa using hpair)] at hput2
  have hfirst : (⟨.primary,.loaded (.leaf [] 0),1⟩ : MutableTree Bytes Bytes).put bytesCodec tx low.1 low.2 =
      .ok ⟨.primary,.loaded (.leaf [low] 1),1⟩ := by
    simp only [length_nil,length_singleton] at hput1
    simp only [MutableTree.put,checkKey_of_isRecord hlow,ok_bind,hput1,pure_eq_ok]
  have hsecond : (⟨.primary,.loaded (.leaf [low] 1),1⟩ : MutableTree Bytes Bytes).put bytesCodec tx high.1 high.2 =
      .ok ⟨.primary,.loaded (.leaf [low,high] 2),1⟩ := by
    simp only [length_cons,length_nil,Nat.zero_add,Nat.reduceAdd] at hput2
    simp only [MutableTree.put,checkKey_of_isRecord hhigh,ok_bind,hput2,pure_eq_ok]
  exact ⟨h2 ▸ insert_ordered ho1 _ _,_,.snoc (.snoc .nil (.put hfirst)) (.put hsecond),rfl,rfl⟩

theorem document_lt {m n : Byte} (h : m < n) (size size' : ℕ) : (document m size).1 < (document n size').1 := by
  change (List.replicate 15 0 ++ [m] : Bytes) < List.replicate 15 0 ++ [n]
  simpa [List.replicate,List.cons_lt_cons_iff] using h

/-- A record of 8216 bytes splits the leaf of two records of 8012 bytes; it fills a page with either of them. -/
theorem primary_put_storable_split : ∃ s : TreeSession TreePage Bytes Bytes,
    TreeSession.Run bytesCodec .primary ⟨firstTransaction,⟨.primary,.loaded (.leaf [] 0),1⟩,[]⟩
      ([] ++ [.put (document 1 8012).1 (document 1 8012).2] ++ [.put (document 3 8012).1 (document 3 8012).2]) s ∧
    bytesCodec.targetLeaf s.tx .primary s.tree.depth s.tree.root (document 2 8216).1 = .ok [document 1 8012,document 3 8012] ∧
    leafRoom < ([document 1 8012,document 2 8216,document 3 8012].map bytesCodec.leafCost).sum ∧
    s.tree.put bytesCodec s.tx (document 2 8216).1 (document 2 8216).2 ≠ .error .nodeFull := by
  have hlow : IsRecord (document 1 8012) := document_isRecord 1 (by omega)
  have hhigh : IsRecord (document 3 8012) := document_isRecord 3 (by omega)
  have hmiddle : IsRecord (document 2 8216) := document_isRecord 2 le_rfl
  have hlm : (document 1 8012).1 < (document 2 8216).1 := document_lt (by decide) _ _
  have hmh : (document 2 8216).1 < (document 3 8012).1 := document_lt (by decide) _ _
  have hroom : leafRoom = 16288 := rfl
  obtain ⟨-,s,hrun,htx,htree⟩ := run_pair firstTransaction hlow hhigh (hlm.trans hmh)
    (by simp only [document_leafCost,hroom]; omega)
  have hcosts : [document 1 8012,document 2 8216,document 3 8012].map bytesCodec.leafCost = [8042,8246,8042] := by
    simp only [map_cons,map_nil,document_leafCost]
  have htarget : bytesCodec.targetLeaf s.tx .primary s.tree.depth s.tree.root (document 2 8216).1 =
      .ok [document 1 8012,document 3 8012] := by
    rw [htree]
    rfl
  refine ⟨s,hrun,htarget,by rw [hcosts]; decide,?_⟩
  refine (primary_put_storable_iff firstTransaction_wellFormed rfl hrun ?_ hmiddle).mpr ?_
  · simpa [TreeOp.IsDocument] using ⟨hlow,hhigh⟩
  rintro leaf hleaf ⟨a,x,b,hwedged,hleft,hright⟩
  cases htarget.symm.trans hleaf
  have hinsert := insert_between hlm hmh
  rw [← hinsert] at hcosts
  replace hwedged := hcosts.symm.trans hwedged
  -- the record that overflows on both sides would be one of the three
  rw [hroom] at hleft hright
  rcases a with _ | ⟨p,_ | ⟨q,_ | ⟨r,a⟩⟩⟩
  · cases hwedged
    exact absurd hleft (by decide)
  · cases hwedged
    exact absurd hleft (by decide)
  · cases hwedged
    exact absurd hright (by decide)
  · simp at hwedged

/-- Three records of which the outer two share a leaf and the middle one fits with neither. -/
theorem put_wedged (hlow : IsRecord low)
    (hmiddle : IsRecord middle) (hhigh : IsRecord high) (hlm : low.1 < middle.1) (hmh : middle.1 < high.1)
    (hpair : bytesCodec.leafCost low + bytesCodec.leafCost high ≤ leafRoom)
    (hleft : leafRoom < bytesCodec.leafCost low + bytesCodec.leafCost middle)
    (hright : leafRoom < bytesCodec.leafCost middle + bytesCodec.leafCost high) :
    ∃ s : TreeSession TreePage Bytes Bytes,
      TreeSession.Run bytesCodec .primary ⟨tx,⟨.primary,.loaded (.leaf [] 0),1⟩,[]⟩
        ([] ++ [.put low.1 low.2] ++ [.put high.1 high.2]) s ∧
      s.tree.put bytesCodec s.tx middle.1 middle.2 = .error .nodeFull := by
  obtain ⟨hordered,s,hrun,htx,htree⟩ := run_pair tx hlow hhigh (hlm.trans hmh) hpair
  have h3 := insert_between hlm hmh
  have hput := put_one_leaf tx .primary hordered middle.1 middle.2
  obtain ⟨err,herr⟩ : ∃ err, bytesCodec.finishLeaf [low,middle,high] 3 = .error err :=
    (finishLeaf_eq_error (by simpa using ⟨hlow,hmiddle,hhigh⟩)).mpr ⟨[bytesCodec.leafCost low],bytesCodec.leafCost middle,
      [bytesCodec.leafCost high],rfl,by simpa using hleft,by simpa using hright⟩
  have hspec := finishLeaf_spec (c := bytesCodec) tx .primary (h3 ▸ insert_ordered hordered _ _)
    (by simpa using ⟨hlow.valid,hmiddle.valid,hhigh.valid⟩)
  rw [show [low,middle,high].length = 3 from rfl,herr] at hspec
  rw [h3,show [low,middle,high].length = 3 from rfl,herr,show err = .nodeFull from hspec] at hput
  refine ⟨s,hrun,?_⟩
  rw [htx,htree]
  simp only [length_cons,length_nil,Nat.zero_add,Nat.reduceAdd] at hput
  simp only [MutableTree.put,checkKey_of_isRecord hmiddle,ok_bind,hput,error_bind]

/-- Two documents with records of 8070 bytes share a leaf and leave no place for a record of
8216 bytes between them. -/
theorem primary_put_wedged :
    IsRecord (document 1 8070) ∧ IsRecord (document 2 8216) ∧ IsRecord (document 3 8070) ∧
    ∃ s : TreeSession TreePage Bytes Bytes,
      TreeSession.Run bytesCodec .primary ⟨firstTransaction,⟨.primary,.loaded (.leaf [] 0),1⟩,[]⟩
        ([] ++ [.put (document 1 8070).1 (document 1 8070).2] ++ [.put (document 3 8070).1 (document 3 8070).2]) s ∧
      s.tree.put bytesCodec s.tx (document 2 8216).1 (document 2 8216).2 = .error .nodeFull := by
  have hlow : IsRecord (document 1 8070) := document_isRecord 1 (by omega)
  have hmiddle : IsRecord (document 2 8216) := document_isRecord 2 le_rfl
  have hhigh : IsRecord (document 3 8070) := document_isRecord 3 (by omega)
  have hroom : leafRoom = 16288 := rfl
  refine ⟨hlow,hmiddle,hhigh,put_wedged hlow hmiddle hhigh (document_lt (by decide) _ _) (document_lt (by decide) _ _)
    ?_ ?_ ?_⟩
  all_goals
    rw [document_leafCost,document_leafCost,hroom]
    omega

end Meldbase.Storage
