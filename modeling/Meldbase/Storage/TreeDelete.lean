import Meldbase.Storage.TreePut

/-! # Deletion

`delete` removes an entry from a subtree.  An emptied child disappears with its
separator, the separator of an edited child follows its lowest key, and a
neighbour is merged in when both fit one page; none of this changes the
entries of the branch.
-/
namespace Meldbase.Storage
open List
open Entries ListSurgery Outcome TreeCodec
variable {B K V : Type} [LinearOrder K] {c : TreeCodec B K V} {tx : WriteTxn B} {kind : TreeKind} {h depth : ℕ}
  {pl : List (List (K × V))} {m : List (K × V)} {pr : List (List (K × V))}

theorem minimumKey_spec (hd : h < depth) (hr : Represents c tx kind h ref es) (hne : es ≠ []) :
    ∃ k, c.minimumKey tx kind depth ref = .ok k ∧ IsMinKey k es := by
  induction h generalizing depth ref es with
  | zero =>
    obtain ⟨depth,rfl⟩ := exists_depth hd
    obtain ⟨e,es,rfl⟩ := exists_cons_of_ne_nil hne
    exact ⟨e.1,by simp [TreeCodec.minimumKey,hr.1.loads],e.2,es,rfl⟩
  | succ h ih =>
    obtain ⟨depth,rfl⟩ := exists_depth hd
    obtain ⟨keys,children,pieces,hv,hp,rfl,-⟩ := hr.parts
    obtain ⟨p,pieces,rfl⟩ := exists_cons_of_ne_nil hp.separates.1
    obtain ⟨child,children,hchild,hrest,rfl⟩ := forall₂_cons_right_iff.mp hp.children
    obtain ⟨k,hk,hmin⟩ := ih (show h < depth by omega) hchild (hp.nonempty p mem_cons_self)
    refine ⟨k,by simp [TreeCodec.minimumKey,hv.loads,hk],?_⟩
    rw [flatten_cons]
    exact hmin.append _

omit [LinearOrder K] in
theorem Front.set_last {keys : List K}
    (h : Front keys pl m) (hpl : pl ≠ []) (hk : IsMinKey k m') : Front (keys.set (pl.length - 1) k) pl m' := by
  obtain ⟨ks,s,rfl,hlen,hsep,-⟩ := h.exists_last hpl
  have hset : (ks ++ [s]).set (pl.length - 1) k = ks ++ [k] := by
    rw [← hlen,Nat.add_sub_cancel,set_length_append]
  rw [hset]
  exact Front.of_separates hsep hk

/-- Two siblings of one height merge into a node that holds both pieces. -/
theorem mergeNodes_spec
    (ha : Represents c tx kind h leftRef a) (hb : Represents c tx kind h rightRef b) (hsep : IsMinKey separator b)
    (ho : Ordered (a ++ b)) :
    ∃ left right merged, c.load tx kind leftRef = .ok left ∧ c.load tx kind rightRef = .ok right ∧
      mergeNodes separator left right = .ok merged ∧
      (c.nodeFits merged = true → Represents c tx kind h (.loaded merged) (a ++ b)) := by
  cases h with
  | zero =>
    refine ⟨_,_,_,ha.1.loads,hb.1.loads,rfl,fun hfit => ?_⟩
    rw [← length_append] at hfit ⊢
    exact ⟨Views.loaded _,ho,hfit⟩
  | succ h =>
    obtain ⟨ka,ca,pa,hva,hpa,rfl,-⟩ := ha.parts
    obtain ⟨kb,cb,pb,hvb,hpb,rfl,-⟩ := hb.parts
    refine ⟨_,_,_,hva.loads,hvb.loads,rfl,fun hfit => ?_⟩
    obtain ⟨p,pb,rfl⟩ := exists_cons_of_ne_nil hpb.separates.1
    have hs : IsMinKey separator p := hsep.of_append (hpb.nonempty p mem_cons_self)
    have hparts : Parts c tx kind h (ka ++ separator::kb) (ca ++ cb) (pa ++ p::pb) := by
      refine ⟨rel_append hpa.children hpb.children,forall_mem_append.mpr ⟨hpa.nonempty,hpb.nonempty⟩,?_,by simpa using ho⟩
      refine separates_cut.mpr ⟨ka ++ [separator],kb,by simp,?_,Front.of_separates hpa.separates hs,hpb.separates.2⟩
      have := hpa.separates.length_eq
      simp [this]
    have hrep := hparts.represents (c.nodeFits_branch.mp hfit).2.2
      (n := pa.flatten.length + (p::pb).flatten.length) (by simp)
    simpa using hrep

/-- Merging two adjacent children keeps the entries of the branch. -/
theorem mergeChildren_spec {keys : List K} (hp : Parts c tx kind h keys children (pl ++ a::b::pr)) :
    c.mergeChildren tx kind keys children pl.length = .ok none ∨
    ∃ kl kr cl cr merged, c.mergeChildren tx kind keys children pl.length = .ok (some (kl ++ kr,cl ++ merged::cr)) ∧
      Context c tx kind h kl kr cl cr pl pr ∧ Front kl pl (a ++ b) ∧ Represents c tx kind h merged (a ++ b) ∧ a ++ b ≠ [] := by
  obtain ⟨kl,kr,cl,leftRef,cr,rfl,rfl,hctx,hfront,ha,hane⟩ := hp.cut
  obtain ⟨rightRef,cr,hb,hcr,rfl⟩ := forall₂_cons_right_iff.mp hctx.right
  obtain ⟨separator,kr,hsep,hkr,rfl⟩ := forall₂_cons_right_iff.mp hctx.back
  have ho : Ordered (a ++ b) := by
    have h := hp.ordered
    simp only [flatten_append,flatten_cons] at h
    rw [← append_assoc a] at h
    exact (ordered_append.mp (ordered_append.mp h).2.1).1
  obtain ⟨left,right,merged,hleft,hright,hmerge,hrep⟩ := mergeNodes_spec ha hb hsep ho
  have h1 : (cl ++ leftRef::rightRef::cr)[pl.length]? = some leftRef := by simp [← hctx.childrenLength]
  have h2 : (cl ++ leftRef::rightRef::cr)[pl.length+1]? = some rightRef := by simp [← hctx.childrenLength]
  have h3 : (kl ++ separator::kr)[pl.length]? = some separator := by simp [← hctx.keysLength]
  simp only [TreeCodec.mergeChildren,h1,h2,h3,hleft,hright,hmerge,ok_bind]
  by_cases hfit : c.nodeFits merged = true
  · right
    have hkeys : (kl ++ separator::kr).eraseIdx pl.length = kl ++ kr := by
      rw [← hctx.keysLength,eraseIdx_length_append]
    have hchildren : ((cl ++ leftRef::rightRef::cr).set pl.length (.loaded merged)).eraseIdx (pl.length+1) =
        cl ++ .loaded merged::cr := by
      have := eraseIdx_length_append (cl ++ [NodeRef.loaded merged]) rightRef cr
      rw [← hctx.childrenLength,set_length_append]
      simpa using this
    refine ⟨kl,kr,cl,cr,.loaded merged,by simp [hfit,hkeys,hchildren],?_,?_,hrep hfit,by simp [hane]⟩
    · exact ⟨hctx.keysLength,hctx.childrenLength,hctx.left,hcr,hkr,hctx.left_nonempty,
        fun p hp => hctx.right_nonempty p (mem_cons_of_mem _ hp)⟩
    · exact hfront.congr (fun _ k hk => hk.append b)
  · left
    simp [hfit]

/-- The merge step after a deletion keeps the entries of the branch. -/
theorem mergeAround_spec {keys : List K}
    (hd : h < depth) (hp : Parts c tx kind h keys children pieces) (hi : index < children.length) :
    ∃ keys' children' pieces', c.mergeAround tx kind depth keys children index = .ok (keys',children') ∧
      Parts c tx kind h keys' children' pieces' ∧ pieces'.flatten = pieces.flatten := by
  unfold mergeAround
  by_cases hone : children.length ≤ 1
  · exact ⟨keys,children,pieces,by simp [hone],hp,rfl⟩
  simp only [hone,if_false]
  generalize hmi : (if children.length - 1 ≤ index then index - 1 else index) = mergeIndex
  have hlt : mergeIndex+1 < pieces.length := by
    rw [← hp.children.length_eq,← hmi]
    split <;> omega
  obtain ⟨pl,a,rest,rfl,rfl⟩ := exists_cut_of_lt (show mergeIndex < pieces.length by omega)
  obtain ⟨b,pr,rfl⟩ := exists_cons_of_ne_nil (show rest ≠ [] by rintro rfl; simp at hlt)
  rcases mergeChildren_spec hp with hnone | ⟨kl,kr,cl,cr,merged,hsome,hctx,hfront,hrep,hne⟩
  · exact ⟨keys,children,_,by simp [hnone],hp,rfl⟩
  have hparts : Parts c tx kind h (kl ++ kr) (cl ++ merged::cr) (pl ++ (a ++ b) :: pr) :=
    hctx.join hfront hrep hne hctx.right hctx.back hctx.right_nonempty (by simpa using hp.ordered)
  simp only [hsome,ok_bind]
  by_cases hzero : pl.length = 0
  · exact ⟨_,_,_,by simp [hzero],hparts,by simp⟩
  have hpl : pl ≠ [] := fun h => hzero (by simp [h])
  obtain ⟨k,hk,hmin⟩ := minimumKey_spec hd hrep hne
  have hget : (cl ++ merged::cr)[pl.length]? = some merged := by simp [← hctx.childrenLength]
  have hset : (kl ++ kr).set (pl.length - 1) k = kl.set (pl.length - 1) k ++ kr :=
    set_append_left _ _ (by rw [hctx.keysLength]; omega)
  have hctx' : Context c tx kind h (kl.set (pl.length - 1) k) kr cl cr pl pr :=
    ⟨by simp [hctx.keysLength],hctx.childrenLength,hctx.left,hctx.right,hctx.back,hctx.left_nonempty,
      hctx.right_nonempty⟩
  refine ⟨_,_,_,by simp only [hzero,if_false,hget,hk,ok_bind,pure_eq_ok,hset],
    hctx'.join (hfront.set_last hpl hmin) hrep hne hctx.right hctx.back hctx.right_nonempty
      (by simpa using hp.ordered),by simp⟩

def DeletedHolds (c : TreeCodec B K V) (tx : WriteTxn B) (kind : TreeKind) (h : ℕ) (es : List (K × V))
    (edited : Edited K V) : Prop :=
  (es ≠ [] ∧ EditedHolds c tx kind h es edited) ∨ (es = [] ∧ edited = (.loaded (.leaf [] 0),none))

theorem settleChild_empty (depth : ℕ)
    (hctx : Context c tx kind h kl kr cl cr pl pr) (hfront : Front kl pl m)
    (ho : Ordered (pl ++ pr).flatten) :
    ∃ keys' children' index', c.settleChild tx kind depth (kl ++ kr) (cl ++ .loaded (.leaf [] 0) :: cr) cl.length
        (.loaded (.leaf [] 0)) = .ok (keys',children',index') ∧ children'.length = (pl ++ pr).length ∧
      (pl ++ pr ≠ [] → Parts c tx kind h keys' children' (pl ++ pr) ∧ index' < children'.length) := by
  have hne : ∀ p ∈ pl ++ pr, p ≠ [] := forall_mem_append.mpr ⟨hctx.left_nonempty,hctx.right_nonempty⟩
  have hch : Forall₂ (Represents c tx kind h) (cl ++ cr) (pl ++ pr) := rel_append hctx.left hctx.right
  rcases eq_nil_or_concat' pl with rfl | ⟨pl',p,rfl⟩
  · have hcl : cl = [] := length_eq_zero_iff.mp hctx.childrenLength
    have hkl : kl = [] := length_eq_zero_iff.mp hctx.keysLength
    subst hcl hkl
    refine ⟨kr.eraseIdx 0,cr,0,by simp [settleChild,TreeCodec.load,TreeNode.count],by simpa using hch.length_eq,?_⟩
    intro hpr
    obtain ⟨q,pr,rfl⟩ := exists_cons_of_ne_nil hpr
    obtain ⟨s,kr,-,hkr,rfl⟩ := forall₂_cons_right_iff.mp hctx.back
    refine ⟨⟨hch,hne,⟨by simp,by simpa using hkr⟩,ho⟩,?_⟩
    rw [hctx.right.length_eq]
    simp
  obtain ⟨ks,s,rfl,hks,hsep,-⟩ := hfront.exists_last (by simp)
  have hclen : cl.length = ks.length+1 := by rw [hctx.childrenLength,← hks]
  have hkeys : (ks ++ [s] ++ kr).eraseIdx (cl.length - 1) = ks ++ kr := by
    rw [hclen,Nat.add_sub_cancel,append_assoc,singleton_append,eraseIdx_length_append]
  refine ⟨ks ++ kr,cl ++ cr,cl.length - 1,?_,hch.length_eq,fun _ => ⟨⟨hch,hne,?_,ho⟩,?_⟩⟩
  · have hzero : cl.length ≠ 0 := by omega
    simp only [settleChild,TreeCodec.load,ok_bind,TreeNode.count,if_true,hzero,if_false,hkeys,
      eraseIdx_length_append,pure_eq_ok]
  · refine ⟨by simp,?_⟩
    rw [append_assoc,singleton_append,tail_append_cons]
    exact rel_append hsep.2 hctx.back
  · simp only [length_append]
    omega

/-- The separator before a non-empty edited child follows its lowest key. -/
theorem settleChild_edited (hd : h < depth)
    (hctx : Context c tx kind h kl kr cl cr pl pr) (hfront : Front kl pl m)
    (hleft : Represents c tx kind h left l) (hl : l ≠ []) (kr' : List K) (children : List (NodeRef K V)) :
    ∃ kl', c.settleChild tx kind depth (kl ++ kr') children cl.length left = .ok (kl' ++ kr',children,cl.length) ∧
      Context c tx kind h kl' kr cl cr pl pr ∧ Front kl' pl l := by
  obtain ⟨node,hv,hcount⟩ := hleft.exists_view
  have hpos : node.count ≠ 0 := by
    rw [hcount]
    exact fun h0 => hl (length_eq_zero_iff.mp h0)
  have hclpl := hctx.childrenLength
  by_cases hzero : cl.length = 0
  · refine ⟨kl,by simp [settleChild,hv.loads,hpos,hzero],hctx,?_⟩
    have hpl : pl = [] := length_eq_zero_iff.mp (by omega)
    exact hfront.congr (fun hne => absurd hpl hne)
  obtain ⟨k,hk,hmin⟩ := minimumKey_spec hd hleft hl
  have hpl : pl ≠ [] := fun h0 => hzero (by simp [hclpl,h0])
  have hset : (kl ++ kr').set (cl.length - 1) k = kl.set (cl.length - 1) k ++ kr' :=
    set_append_left _ _ (by rw [hctx.keysLength]; omega)
  refine ⟨kl.set (cl.length - 1) k,?_,{ hctx with keysLength := by simp [hctx.keysLength] },?_⟩
  · simp only [settleChild,hv.loads,ok_bind,hpos,hzero,if_false,hk,hset,pure_eq_ok]
  · rw [hclpl]
    exact hfront.set_last hpl hmin

theorem settled_spec (child : NodeRef K V) (hd : h < depth)
    (hctx : Context c tx kind h kl kr cl cr pl pr) (hfront : Front kl pl m)
    (hdel : DeletedHolds c tx kind h m' edited) (ho : Ordered (pl.flatten ++ m' ++ pr.flatten)) :
    ∃ keys children index,
      c.settleChild tx kind depth (replaceChild (kl ++ kr) (cl ++ child::cr) cl.length edited).1
        (replaceChild (kl ++ kr) (cl ++ child::cr) cl.length edited).2 cl.length edited.1 = .ok (keys,children,index) ∧
      ((children = [] ∧ pl.flatten ++ m' ++ pr.flatten = []) ∨ (index < children.length ∧
        ∃ pieces, Parts c tx kind h keys children pieces ∧ pieces.flatten = pl.flatten ++ m' ++ pr.flatten)) := by
  rcases hdel with ⟨hm',hheld⟩ | ⟨rfl,rfl⟩
  · obtain ⟨kr',cr',l,pr',hrepl,hleft,hl,-,hcr,hback,hne,hsame,-⟩ := hctx.replaceChild child hheld hm'
    obtain ⟨kl',hset,hctx',hfront'⟩ := settleChild_edited hd hctx hfront hleft hl kr' (cl ++ edited.1::cr')
    have hfl : (pl ++ l::pr').flatten = pl.flatten ++ m' ++ pr.flatten := by
      rw [flatten_append,flatten_cons,hsame,append_assoc]
    refine ⟨_,_,_,by rw [hrepl]; exact hset,.inr ⟨by simp,pl ++ l::pr',?_,hfl⟩⟩
    exact hctx'.join hfront' hleft hl hcr hback hne (hfl ▸ ho)
  obtain ⟨keys,children,index,hset,hlen,hparts⟩ :=
    settleChild_empty (c := c) depth hctx hfront (by simpa using ho)
  refine ⟨keys,children,index,by simpa [replaceChild] using hset,?_⟩
  by_cases hnil : pl ++ pr = []
  · left
    rw [hnil,length_nil] at hlen
    obtain ⟨rfl,rfl⟩ := append_eq_nil_iff.mp hnil
    exact ⟨length_eq_zero_iff.mp hlen,by simp⟩
  · obtain ⟨hp,hi⟩ := hparts hnil
    exact .inr ⟨hi,pl ++ pr,hp,by simp⟩

theorem delete_spec (hd : h < depth) (hr : Represents c tx kind h ref es) (key : K) :
    match c.delete tx kind depth ref key with
    | .ok none => ∀ e ∈ es, e.1 ≠ key
    | .ok (some edited) => (∃ v, (key,v) ∈ es) ∧ DeletedHolds c tx kind h (erase es key) edited
    | .error e => e = .nodeFull := by
  induction h generalizing depth ref es with
  | zero =>
    obtain ⟨depth,rfl⟩ := exists_depth hd
    obtain ⟨hv,ho,hfit⟩ := hr
    obtain ⟨hvalid,hsum⟩ := c.nodeFits_leaf.mp hfit
    obtain ⟨a,b,rfl,hidx,ha,hb⟩ := findIdx_entry_cut ho key
    simp only [TreeCodec.delete,hv.loads,ok_bind,hidx,getElem?_length_append]
    cases b with
    | nil => simpa using fun k v he => (ha (k,v) he).ne
    | cons x b =>
      by_cases hx : x.1 = key
      · obtain ⟨k,v⟩ := x
        obtain rfl : k = key := hx
        have herase : erase (a ++ (k,v) :: b) k = a ++ b := erase_split ho
        have hlen : (a ++ (k,v) :: b).length - 1 = (a ++ b).length := by
          simp only [length_append,length_cons]; omega
        simp only [List.head?_cons,if_true,pure_eq_ok,eraseIdx_length_append,herase,hlen]
        refine ⟨⟨v,by simp⟩,?_⟩
        by_cases hnil : a ++ b = []
        · exact .inr ⟨hnil,by simp [hnil]⟩
        refine .inl ⟨hnil,represents_leaf (herase ▸ erase_ordered ho k) (fun e he => hvalid e ?_) ?_⟩
        · exact (mem_erase.mp (herase.symm ▸ he)).1
        · simp only [map_append,sum_append,map_cons,sum_cons] at hsum ⊢
          omega
      have hxb := (ordered_cons.mp (ordered_append.mp ho).2.1).1
      have hlt : key < x.1 := lt_of_le_of_ne (hb x mem_cons_self) (fun h => hx h.symm)
      simp only [List.head?_cons,hx,if_false,pure_eq_ok]
      refine forall_mem_append.mpr ⟨fun e he => (ha e he).ne,forall_mem_cons.mpr ⟨hx,fun e he => ?_⟩⟩
      exact (hlt.trans (hxb e he)).ne'
  | succ h ih =>
    obtain ⟨depth,rfl⟩ := exists_depth hd
    have hd' : h < depth := by omega
    obtain ⟨keys,children,pieces,hv,hp,rfl,-⟩ := hr.parts
    obtain ⟨pl,m,pr,rfl,hidx,hlt,hgt,-⟩ := hp.separates.route hp.ordered key
    obtain ⟨kl,kr,cl,child,cr,rfl,rfl,hctx,hfront,hchild,hm⟩ := hp.cut
    have hcl : childIndex (kl ++ kr) key = cl.length := hidx.symm.trans hctx.childrenLength.symm
    have hflat : (pl ++ m::pr).flatten = pl.flatten ++ m ++ pr.flatten := by simp
    have herase : erase (pl ++ m::pr).flatten key = pl.flatten ++ erase m key ++ pr.flatten := by
      rw [hflat,erase_middle hlt hgt]
    have ho : Ordered (pl.flatten ++ erase m key ++ pr.flatten) := herase ▸ erase_ordered hp.ordered key
    have hrec := ih hd' hchild
    simp only [TreeCodec.delete,hv.loads,ok_bind,hcl,getElem?_length_append,List.head?_cons]
    cases hdel : c.delete tx kind depth child key with
    | error e => simpa [hdel] using hrec
    | ok result =>
      rw [hdel] at hrec
      cases result with
      | none =>
        have hrec : ∀ e ∈ m, e.1 ≠ key := hrec
        simp only [ok_bind,pure_eq_ok]
        rw [hflat]
        exact forall_mem_append.mpr ⟨forall_mem_append.mpr ⟨fun e he => (hlt e he).ne,hrec⟩,
          fun e he => (hgt e he).ne'⟩
      | some edited =>
        obtain ⟨⟨v,hmem⟩,hheld⟩ := hrec
        have hin : (key,v) ∈ (pl ++ m::pr).flatten := by rw [hflat]; simp [hmem]
        have hlen : (pl ++ m::pr).flatten.length - 1 = (pl.flatten ++ erase m key ++ pr.flatten).length := by
          have := length_erase_of_mem hp.ordered hin
          rw [herase] at this
          omega
        obtain ⟨keys1,children1,index,hset,hsettled⟩ := settled_spec child hd' hctx hfront hheld ho
        simp only [ok_bind,hset,hlen,herase]
        rcases hsettled with ⟨rfl,hnil⟩ | ⟨hi,pieces1,hp1,hfl1⟩
        · simp only [length_nil,if_true,pure_eq_ok,hnil]
          exact ⟨⟨v,hin⟩,.inr ⟨rfl,rfl⟩⟩
        have hne1 : children1.length ≠ 0 := by omega
        obtain ⟨keys2,children2,pieces2,hmerge,hp2,hfl2⟩ := mergeAround_spec hd' hp1 hi
        have hfin := finishBranch_spec hp2 (n := (pl.flatten ++ erase m key ++ pr.flatten).length) (by rw [hfl2,hfl1])
        rw [hfl2,hfl1] at hfin
        have hsome : pl.flatten ++ erase m key ++ pr.flatten ≠ [] := by
          obtain ⟨p,rest,rfl⟩ := exists_cons_of_ne_nil hp1.separates.1
          rw [← hfl1,flatten_cons]
          simp [hp1.nonempty p mem_cons_self]
        simp only [hne1,if_false,hmerge,ok_bind]
        cases hfb : c.finishBranch keys2 children2 (pl.flatten ++ erase m key ++ pr.flatten).length with
        | error e =>
          rw [hfb] at hfin
          exact hfin
        | ok edited2 =>
          rw [hfb] at hfin
          simp only [ok_bind,pure_eq_ok]
          exact ⟨⟨v,hin⟩,.inl ⟨hsome,hfin⟩⟩

/-- Collapsing the root keeps the entries and does not raise the height. -/
theorem collapse_spec (hd : h < depth) (hr : Represents c tx kind h ref es) :
    ∃ root h', c.collapse tx kind depth ref = .ok root ∧ h' ≤ h ∧ Represents c tx kind h' root es := by
  induction h generalizing depth ref es with
  | zero =>
    obtain ⟨depth,rfl⟩ := exists_depth hd
    exact ⟨ref,0,by simp [TreeCodec.collapse,hr.1.loads],le_rfl,hr⟩
  | succ h ih =>
    obtain ⟨depth,rfl⟩ := exists_depth hd
    obtain ⟨keys,children,pieces,hv,hp,rfl,-⟩ := hr.parts
    cases keys with
    | cons k keys => exact ⟨ref,h+1,by simp [TreeCodec.collapse,hv.loads],le_rfl,hr⟩
    | nil =>
      obtain ⟨child,rfl⟩ := length_eq_one_iff.mp (by simpa using hp.length_eq)
      obtain ⟨p,rest,hchild,hrest,rfl⟩ := forall₂_cons_left_iff.mp hp.children
      cases hrest
      obtain ⟨root,h',hroot,hle,hrep⟩ := ih (show h < depth by omega) hchild
      exact ⟨root,h',by simp [TreeCodec.collapse,hv.loads,hroot],by omega,by simpa using hrep⟩

end Meldbase.Storage
