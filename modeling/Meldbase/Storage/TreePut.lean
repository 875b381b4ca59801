import Meldbase.Storage.TreeInvariant

/-! # Insertion

`put` on a subtree yields the subtree with the entry inserted, in one node or in
two nodes separated by the lowest key of the right one.  The only error on a
valid tree is a node that cannot be split.
-/
namespace Meldbase.Storage
open List
open Entries ListSurgery Outcome TreeCodec
variable {B K V : Type} [LinearOrder K] {c : TreeCodec B K V} {tx : WriteTxn B} {kind : TreeKind} {es : List (K × V)}
  {h : ℕ} {pl pr : List (List (K × V))} {m : List (K × V)}

def EditedHolds (c : TreeCodec B K V) (tx : WriteTxn B) (kind : TreeKind) (h : ℕ) (es : List (K × V)) :
    Edited K V → Prop
  | (ref,none) => Represents c tx kind h ref es
  | (left,some (separator,right)) =>
    ∃ l r, es = l ++ r ∧ l ≠ [] ∧ IsMinKey separator r ∧ Represents c tx kind h left l ∧ Represents c tx kind h right r

theorem findIdx_entry_cut (ho : Ordered es) (key : K) :
    ∃ a b, es = a ++ b ∧ es.findIdx (fun e => key ≤ e.1) = a.length ∧ (∀ e ∈ a, e.1 < key) ∧ ∀ e ∈ b, key ≤ e.1 := by
  obtain ⟨a,b,rfl,hidx,ha,hb⟩ := findIdx_cut (fun e : K × V => decide (key ≤ e.1)) es
  refine ⟨a,b,rfl,hidx,fun e he => not_le.mp (by simpa using ha e he),?_⟩
  cases b with
  | nil => simp
  | cons x b =>
    have hx : key ≤ x.1 := by simpa using hb x rfl
    have hxb := (ordered_cons.mp (ordered_append.mp ho).2.1).1
    exact forall_mem_cons.mpr ⟨hx,fun e he => hx.trans (hxb e he).le⟩

/-- Editing the leaf at the found position is map insertion. -/
theorem putEntry_eq (ho : Ordered es) (key : K) (value : V) :
    putEntry es es.length key value = (Entries.insert es key value,(Entries.insert es key value).length) := by
  obtain ⟨a,b,rfl,hidx,ha,hb⟩ := findIdx_entry_cut ho key
  have habove : above key a = [] := above_eq_nil (fun e he => (ha e he).le)
  unfold putEntry
  dsimp only
  rw [hidx,getElem?_length_append]
  cases b with
  | nil =>
    have hins : Entries.insert (a ++ []) key value = a ++ [(key,value)] := by
      simp only [append_nil,Entries.insert,below_eq_self ha,habove]
    rw [hins]
    simp
  | cons x b =>
    have hxb := (ordered_cons.mp (ordered_append.mp ho).2.1).1
    have hbelow : below key (x::b) = [] := below_eq_nil hb
    by_cases hx : x.1 = key
    · have hgt : above key (x::b) = b := by
        have hxx : ¬ key < x.1 := by rw [hx]; exact lt_irrefl _
        have := above_eq_self (k := key) (fun e he => hx ▸ hxb e he)
        simpa [above,hxx] using this
      have hins : Entries.insert (a ++ x::b) key value = a ++ (key,value) :: b := by
        simp only [Entries.insert,below_append,above_append,below_eq_self ha,habove,hbelow,hgt,append_nil,
          nil_append]
      simp [hins,hx]
    have hgt : above key (x::b) = x::b := by
      refine above_eq_self (forall_mem_cons.mpr ?_)
      have hlt : key < x.1 := lt_of_le_of_ne (hb x mem_cons_self) (fun h => hx h.symm)
      exact ⟨hlt,fun e he => hlt.trans (hxb e he)⟩
    have hins : Entries.insert (a ++ x::b) key value = a ++ (key,value) :: x::b := by
      simp only [Entries.insert,below_append,above_append,below_eq_self ha,habove,hbelow,hgt,append_nil,
        nil_append]
    simp [hins,hx,Nat.add_assoc]

/-- A leaf is kept, cut into two leaves, or cannot be split. -/
theorem finishLeaf_spec (tx : WriteTxn B) (kind : TreeKind) (ho : Ordered es) (hv : ∀ e ∈ es, c.ValidKey e.1) :
    match c.finishLeaf es es.length with
    | .ok edited => EditedHolds c tx kind 0 es edited
    | .error e => e = .nodeFull := by
  unfold finishLeaf
  by_cases hfit : c.nodeFits (.leaf es es.length : TreeNode K V (NodeRef K V)) = true
  · simp only [hfit,if_true]
    exact ⟨Views.loaded _,ho,hfit⟩
  simp only [hfit]
  cases hsplit : c.byteBalancedLeafSplit es with
  | none => rfl
  | some middle =>
    obtain ⟨h0,hn,hl,hr⟩ := c.byteBalancedLeafSplit_spec hsplit
    have hcut := take_append_drop middle es
    have hlen : (es.take middle).length = middle := length_take_of_le hn.le
    have hlen' : (es.drop middle).length = es.length - middle := length_drop
    obtain ⟨first,rest,hdrop⟩ := exists_cons_of_ne_nil (show es.drop middle ≠ [] by simp; omega)
    rw [hdrop] at hcut hr hlen'
    have ho' := hcut ▸ ho
    have hv' := hcut ▸ hv
    rw [forall_mem_append] at hv'
    obtain ⟨hol,hor,-⟩ := ordered_append.mp ho'
    simp only [hdrop]
    refine ⟨es.take middle,first::rest,hcut.symm,?_,⟨first.2,rest,rfl⟩,?_,?_⟩
    · exact ne_nil_of_length_pos (by omega)
    · simpa only [hlen] using represents_leaf hol hv'.1 hl
    · simpa only [hlen'] using represents_leaf hor hv'.2 hr

/-- A branch is kept, cut around a promoted separator, or cannot be split. -/
theorem finishBranch_spec {keys : List K}
    (hp : Parts c tx kind h keys children pieces) (hn : n = pieces.flatten.length) :
    match c.finishBranch keys children n with
    | .ok edited => EditedHolds c tx kind (h+1) pieces.flatten edited
    | .error e => e = .nodeFull := by
  unfold finishBranch
  by_cases hfit : c.nodeFits (.branch keys children n : TreeNode K V (NodeRef K V)) = true
  · simp only [hfit,if_true]
    exact hp.represents (c.nodeFits_branch.mp hfit).2.2 hn
  simp only [hfit]
  cases hsplit : c.byteBalancedBranchSplit keys children with
  | none => rfl
  | some middle =>
    obtain ⟨hm,hlen,hl,hr⟩ := c.byteBalancedBranchSplit_spec hsplit
    have hkey : keys[middle]? = some keys[middle] := List.getElem?_eq_getElem hm
    simp only [hkey]
    -- cut children and pieces after position `middle`
    obtain ⟨pl,m,pr,hpieces,hpl⟩ := exists_cut_of_lt (show middle+1 < pieces.length by
      rw [hp.separates.length_eq]; omega)
    obtain rfl := hpieces
    obtain ⟨kl,kr,hkeys,hkl,hfront,hback⟩ := separates_cut.mp hp.separates
    obtain ⟨ks,s,rfl,hks,hsepl,hs⟩ := hfront.exists_last (ne_nil_of_length_pos (by omega))
    have hks' : ks.length = middle := by omega
    have hchildren := hp.children
    rw [← take_append_drop (middle+1) children] at hchildren
    obtain ⟨p1,p2,hcut,hch1,hch2⟩ := forall₂_append_left hchildren
    have htake : (children.take (middle+1)).length = middle+1 := length_take_of_le (by omega)
    obtain ⟨rfl,rfl⟩ := append_inj hcut (by rw [hpl,← hch1.length_eq,htake])
    have hmid : keys[middle] = s := by
      simp only [hkeys]
      rw [getElem_append_left (by simp [hks'])]
      simp [← hks']
    have htk : keys.take middle = ks := by rw [hkeys,← hks']; simp
    have hdk : keys.drop (middle+1) = kr := by rw [hkeys,← hks']; simp
    have hflat : (pl ++ m::pr).flatten = pl.flatten ++ (m::pr).flatten := by simp
    have ho := hp.ordered
    rw [hflat] at ho
    obtain ⟨hol,hor,-⟩ := ordered_append.mp ho
    have hne := forall_mem_append.mp hp.nonempty
    rw [htk] at hl ⊢
    rw [hdk] at hr ⊢
    refine ⟨pl.flatten,(m::pr).flatten,hflat,?_,?_,?_,?_⟩
    · obtain ⟨p,pl,rfl⟩ := exists_cons_of_ne_nil (show pl ≠ [] from ne_nil_of_length_pos (by omega))
      have := hne.1 p mem_cons_self
      simp [this]
    · rw [hmid,flatten_cons]
      exact hs.append _
    · exact Parts.represents ⟨hch1,hne.1,hsepl,hol⟩ hl (sum_count_eq hch1)
    · exact Parts.represents ⟨hch2,hne.2,⟨by simp,by simpa using hback⟩,hor⟩ hr (sum_count_eq hch2)

/-- The surroundings of one child of a branch. -/
structure Context (c : TreeCodec B K V) (tx : WriteTxn B) (kind : TreeKind) (h : ℕ) (kl kr : List K)
    (cl cr : List (NodeRef K V)) (pl pr : List (List (K × V))) : Prop where
  keysLength : kl.length = pl.length
  childrenLength : cl.length = pl.length
  left : Forall₂ (Represents c tx kind h) cl pl
  right : Forall₂ (Represents c tx kind h) cr pr
  back : Forall₂ IsMinKey kr pr
  left_nonempty : ∀ p ∈ pl, p ≠ []
  right_nonempty : ∀ p ∈ pr, p ≠ []

theorem Parts.cut {keys : List K} {children : List (NodeRef K V)}
    (hp : Parts c tx kind h keys children (pl ++ m::pr)) :
    ∃ kl kr cl child cr, keys = kl ++ kr ∧ children = cl ++ child::cr ∧ Context c tx kind h kl kr cl cr pl pr ∧
      Front kl pl m ∧ Represents c tx kind h child m ∧ m ≠ [] := by
  obtain ⟨kl,kr,rfl,hkl,hfront,hback⟩ := separates_cut.mp hp.separates
  obtain ⟨cl,child,cr,rfl,hlen,hcl,hchild,hcr⟩ := forall₂_cut hp.children.flip
  obtain ⟨hnl,hnr⟩ := forall_mem_append.mp hp.nonempty
  obtain ⟨hm,hnr⟩ := forall_mem_cons.mp hnr
  exact ⟨kl,kr,cl,child,cr,rfl,rfl,⟨hkl,hlen,hcl.flip,hcr.flip,hback,hnl,hnr⟩,hfront,hchild,hm⟩

theorem Context.join (hctx : Context c tx kind h kl kr cl cr pl pr)
    (hfront : Front kl pl m) (hchild : Represents c tx kind h child m) (hm : m ≠ [])
    (hcr : Forall₂ (Represents c tx kind h) cr' pr') (hback : Forall₂ IsMinKey kr' pr')
    (hne : ∀ p ∈ pr', p ≠ []) (ho : Ordered (pl ++ m::pr').flatten) :
    Parts c tx kind h (kl ++ kr') (cl ++ child::cr') (pl ++ m::pr') where
  children := rel_append hctx.left (Forall₂.cons hchild hcr)
  nonempty := forall_mem_append.mpr ⟨hctx.left_nonempty,forall_mem_cons.mpr ⟨hm,hne⟩⟩
  separates := separates_cut.mpr ⟨kl,kr',rfl,hctx.keysLength,hfront,hback⟩
  ordered := ho

theorem set_insertIdx_append {α : Type*} (cl : List α) (x left right : α) (cr : List α) :
    ((cl ++ x::cr).set cl.length left).insertIdx (cl.length+1) right = cl ++ left::right::cr := by
  have h := insertIdx_length_append (cl ++ [left]) right cr
  simpa using h

/-- An edited child stands in its old place; what it lost to a split stands to its right. -/
theorem Context.replaceChild (hctx : Context c tx kind h kl kr cl cr pl pr) (child : NodeRef K V)
    (hheld : EditedHolds c tx kind h m edited) (hm : m ≠ []) :
    ∃ kr' cr' l pr', replaceChild (kl ++ kr) (cl ++ child::cr) cl.length edited = (kl ++ kr',cl ++ edited.1::cr') ∧
      Represents c tx kind h edited.1 l ∧ l ≠ [] ∧ (∀ k, IsMinKey k m → IsMinKey k l) ∧
      Forall₂ (Represents c tx kind h) cr' pr' ∧ Forall₂ IsMinKey kr' pr' ∧ (∀ p ∈ pr', p ≠ []) ∧
      l ++ pr'.flatten = m ++ pr.flatten ∧ kr'.length ≤ kr.length+1 := by
  obtain ⟨left,split⟩ := edited
  cases split with
  | none =>
    exact ⟨kr,cr,m,pr,by simp [TreeCodec.replaceChild],hheld,hm,fun _ hk => hk,hctx.right,hctx.back,
      hctx.right_nonempty,rfl,Nat.le_succ _⟩
  | some sr =>
    obtain ⟨separator,right⟩ := sr
    obtain ⟨l,r,rfl,hl,hsep,hleft,hright⟩ := hheld
    have hkl : cl.length = kl.length := hctx.childrenLength.trans hctx.keysLength.symm
    refine ⟨separator::kr,right::cr,l,r::pr,?_,hleft,hl,fun k hk => hk.of_append hl,
      Forall₂.cons hright hctx.right,Forall₂.cons hsep hctx.back,
      forall_mem_cons.mpr ⟨hsep.ne_nil,hctx.right_nonempty⟩,by simp,by simp⟩
    simp only [TreeCodec.replaceChild,set_insertIdx_append]
    rw [hkl,insertIdx_length_append]

theorem EditedHolds.count_eq (hheld : EditedHolds c tx kind h es edited) : editedCount edited = es.length := by
  obtain ⟨left,split⟩ := edited
  cases split with
  | none => exact Represents.count_eq hheld
  | some sr =>
    obtain ⟨l,r,rfl,-,-,hleft,hright⟩ := hheld
    simp only [editedCount,hleft.count_eq,hright.count_eq,length_append]

/-- Putting back a child that took in an entry leaves the branch with that entry inserted. -/
theorem Context.put_child (hctx : Context c tx kind h kl kr cl cr pl pr)
    (hfront : Front kl pl m) (hchild : Represents c tx kind h child m)
    (ho : Ordered (pl ++ m::pr).flatten) (hlt : ∀ e ∈ pl.flatten, e.1 < key) (hgt : ∀ e ∈ pr.flatten, key < e.1)
    (hmin : pl ≠ [] → ∀ s, IsMinKey s m → s ≤ key) (hheld : EditedHolds c tx kind h (Entries.insert m key value) edited) :
    ∃ keys children pieces, TreeCodec.replaceChild (kl ++ kr) (cl ++ child::cr) cl.length edited = (keys,children) ∧
      Parts c tx kind h keys children pieces ∧ pieces.flatten = Entries.insert (pl ++ m::pr).flatten key value ∧
      keys.length ≤ (kl ++ kr).length+1 ∧
      (pl ++ m::pr).flatten.length+editedCount edited - child.count = pieces.flatten.length := by
  have hflat : (pl ++ m::pr).flatten = pl.flatten ++ m ++ pr.flatten := by simp
  have hins : Entries.insert (pl ++ m::pr).flatten key value =
      pl.flatten ++ Entries.insert m key value ++ pr.flatten := by
    rw [hflat,insert_middle value hlt hgt]
  -- the lowest key of the edited piece is the one the separators before it record
  have hkeep : pl ≠ [] → ∀ k, IsMinKey k m → IsMinKey k (Entries.insert m key value) :=
    fun hne k hkm => hkm.insert hchild.ordered (hmin hne k hkm) value
  obtain ⟨kr',cr',l,pr',hrepl,hleft,hl,hlow,hcr,hback,hne,hsame,hlen⟩ :=
    hctx.replaceChild child hheld (insert_ne_nil m key value)
  have hfl : (pl ++ l::pr').flatten = Entries.insert (pl ++ m::pr).flatten key value := by
    rw [hins,flatten_append,flatten_cons,hsame,append_assoc]
  refine ⟨_,_,pl ++ l::pr',hrepl,?_,hfl,?_,?_⟩
  · exact hctx.join (hfront.congr (fun hpl k hkm => hlow k (hkeep hpl k hkm))) hleft hl hcr hback hne
      (hfl ▸ insert_ordered ho key value)
  · simp only [length_append]
    omega
  rw [hheld.count_eq,hchild.count_eq,hfl,hins]
  simp only [flatten_append,flatten_cons,length_append]
  omega

theorem put_spec {ref : NodeRef K V} (hd : h < depth)
    (hr : Represents c tx kind h ref es) (hk : c.ValidKey key) (value : V) :
    match c.put tx kind depth ref key value with
    | .ok edited => EditedHolds c tx kind h (Entries.insert es key value) edited
    | .error e => e = .nodeFull := by
  induction h generalizing depth ref es with
  | zero =>
    obtain ⟨depth,rfl⟩ := Nat.exists_eq_add_of_lt hd
    obtain ⟨hv,ho,hfit⟩ := hr
    have hvalid : ∀ e ∈ Entries.insert es key value, c.ValidKey e.1 := by
      intro e he
      rcases mem_insert.mp he with rfl | ⟨he,-⟩
      · exact hk
      · exact (c.nodeFits_leaf.mp hfit).1 e he
    simp only [TreeCodec.put,hv.loads,ok_bind,putEntry_eq ho]
    exact finishLeaf_spec tx kind (insert_ordered ho key value) hvalid
  | succ h ih =>
    obtain ⟨depth,rfl⟩ := exists_depth hd
    obtain ⟨keys,children,pieces,hv,hp,rfl,-⟩ := hr.parts
    obtain ⟨pl,m,pr,rfl,hidx,hlt,hgt,hmin⟩ := hp.separates.route hp.ordered key
    obtain ⟨kl,kr,cl,child,cr,rfl,rfl,hctx,hfront,hchild,-⟩ := hp.cut
    have hcl : childIndex (kl ++ kr) key = cl.length := hidx.symm.trans hctx.childrenLength.symm
    have hrec := ih (show h < depth by omega) hchild
    simp only [TreeCodec.put,hv.loads,ok_bind,hcl,getElem?_length_append,List.head?_cons]
    cases hput : c.put tx kind depth child key value with
    | error e => simpa [hput] using hrec
    | ok edited =>
      have hheld : EditedHolds c tx kind h (Entries.insert m key value) edited := by simpa [hput] using hrec
      obtain ⟨keys',children',pieces',hrepl,hparts,hfl,-,hcount⟩ :=
        hctx.put_child hfront hchild hp.ordered hlt hgt hmin hheld
      have hfin := finishBranch_spec hparts hcount
      rw [hfl] at hfin
      simpa [hrepl] using hfin

end Meldbase.Storage
