import Meldbase.Storage.TreeRead

/-! # Flushing and reopening

`flush` writes the changed nodes bottom up on fresh pages, and the page it
returns represents the same entries.  Pages on one root-to-leaf path are
distinct, since a page has one height only; so the number of file pages bounds
the height of a stored tree, and a tree reopened at a flushed root is fully
readable.
-/
namespace Meldbase.Storage
open List
open Entries ListSurgery Outcome TreeCodec
variable {B K V : Type} [LinearOrder K] {c : TreeCodec B K V} {tx tx' : WriteTxn B} {kind : TreeKind} {page : PageRef}
  {h : ℕ} {es : List (K × V)}

theorem writeNode_spec (hwf : tx.WellFormed)
    (hdec : node.decodable c.keyLen = true) (h : c.writeNode kind tx node = .ok (page,tx')) :
    tx.Extends tx' ∧ Views c tx' kind (.stored page) (node.mapChildren NodeRef.stored) := by
  unfold writeNode at h
  obtain ⟨size,-,h⟩ := bind_eq_ok.mp h
  obtain ⟨⟨id,tx1⟩,happ,h⟩ := bind_eq_ok.mp h
  cases h
  obtain ⟨hin,-,hread,hext⟩ := WriteTxn.appendPage_spec hwf happ
  have hcount : node.count = (node.mapChildren (NodeRef.stored (K := K) (V := V))).count := by
    cases node <;> rfl
  refine ⟨hext,?_,?_⟩
  · simp only [TreeCodec.load,reference,hread,c.decode_encode kind node hdec,if_true,ok_bind,← hcount]
  · rintro _ ⟨⟩
    exact hin

theorem flushChildren_spec {write : WriteTxn B → NodeRef K V → Except StorageError (PageRef × WriteTxn B)}
    (hwrite : ∀ {tx tx' : WriteTxn B} {ref page es}, tx.WellFormed → Represents c tx kind h ref es →
      write tx ref = .ok (page,tx') → tx.Extends tx' ∧ Represents c tx' kind h (.stored page) es)
    (hwf : tx.WellFormed)
    (hch : Forall₂ (Represents c tx kind h) children pieces)
    (hflush : flushChildren write tx children = .ok (pages,tx')) :
    tx.Extends tx' ∧ Forall₂ (Represents c tx' kind h) (pages.map NodeRef.stored) pieces := by
  induction children generalizing tx pieces pages with
  | nil =>
    cases hch
    cases hflush
    exact ⟨WriteTxn.Extends.refl hwf,Forall₂.nil⟩
  | cons child children ih =>
    obtain ⟨p,pieces,hchild,hrest,rfl⟩ := forall₂_cons_left_iff.mp hch
    unfold flushChildren at hflush
    obtain ⟨⟨page,tx1⟩,hpage,hflush⟩ := bind_eq_ok.mp hflush
    obtain ⟨⟨pages',tx2⟩,hpages,hflush⟩ := bind_eq_ok.mp hflush
    cases hflush
    obtain ⟨hext1,hrep⟩ := hwrite hwf hchild hpage
    obtain ⟨hext2,hreps⟩ := ih hext1.wellFormed (hrest.imp (fun _ _ hr => hr.mono hext1)) hpages
    exact ⟨hext1.trans hext2,Forall₂.cons (hrep.mono hext2) hreps⟩

theorem two_le_pageID {pages : List PageRef}
    (hch : Forall₂ (Represents c tx kind h) (pages.map NodeRef.stored) pieces) :
    ∀ page ∈ pages, 2 ≤ page.pageID := by
  intro page hpage
  obtain ⟨i,hi,rfl⟩ := getElem_of_mem hpage
  have hlen := hch.length_eq
  rw [length_map] at hlen
  have hr := Forall₂.get hch (by simpa using hi) (hlen ▸ hi)
  simp only [get_eq_getElem,getElem_map] at hr
  exact hr.allocated.1

theorem flush_spec {depth : ℕ} (hwf : tx.WellFormed)
    (hr : Represents c tx kind h ref es) (hflush : c.flush kind depth tx ref = .ok (page,tx')) :
    tx.Extends tx' ∧ Represents c tx' kind h (.stored page) es := by
  induction h generalizing depth tx tx' ref es page with
  | zero =>
    cases ref with
    | stored p =>
      rw [TreeCodec.flush] at hflush
      cases hflush
      exact ⟨WriteTxn.Extends.refl hwf,hr⟩
    | loaded node =>
      obtain ⟨hv,ho,hfit⟩ := hr
      obtain rfl : node = .leaf es es.length := by cases hv.loads; rfl
      cases depth with
      | zero => simp [TreeCodec.flush] at hflush
      | succ depth =>
        rw [TreeCodec.flush] at hflush
        have hvalid := (c.nodeFits_leaf.mp hfit).1
        have hdec : (TreeNode.leaf es es.length : TreeNode K V PageRef).decodable c.keyLen = true := by
          have hkeys : (es.map Prod.fst).Pairwise (· < ·) := pairwise_map.mpr ho
          simpa [TreeNode.decodable,hkeys] using fun k v he => (hvalid (k,v) he).1
        obtain ⟨hext,hview⟩ := writeNode_spec hwf hdec hflush
        exact ⟨hext,hview,ho,hfit⟩
  | succ h ih =>
    cases ref with
    | stored p =>
      rw [TreeCodec.flush] at hflush
      cases hflush
      exact ⟨WriteTxn.Extends.refl hwf,hr⟩
    | loaded node =>
      obtain ⟨keys,children,pieces,hv,hp,rfl,hfit⟩ := hr.parts
      obtain rfl : node = .branch keys children pieces.flatten.length := by cases hv.loads; rfl
      cases depth with
      | zero => simp [TreeCodec.flush] at hflush
      | succ depth =>
        rw [TreeCodec.flush] at hflush
        obtain ⟨⟨pages,tx1⟩,hchildren,hwrite⟩ := bind_eq_ok.mp hflush
        obtain ⟨hext1,hreps⟩ := flushChildren_spec (fun hwf hr hf => ih hwf hr hf) hwf hp.children hchildren
        have hp1 : Parts c tx1 kind h keys (pages.map NodeRef.stored) pieces :=
          ⟨hreps,hp.nonempty,hp.separates,hp.ordered⟩
        have hvalid := hp.separates.keys_valid hp.validKeys
        have hdec : (TreeNode.branch keys pages pieces.flatten.length : TreeNode K V PageRef).decodable c.keyLen = true := by
          have hlen : pages.length = keys.length+1 := by simpa using hp1.length_eq
          have hsum : pieces.flatten.length = (pages.map PageRef.count).sum := by
            rw [← sum_count_eq hreps,map_map]
            rfl
          simp only [TreeNode.decodable,hp.separates.keys_pairwise hp.ordered,hlen,hsum,decide_true,beq_self_eq_true,
            Bool.and_true,Bool.true_and,Bool.and_eq_true,all_eq_true,decide_eq_true_eq]
          exact ⟨fun k hk => (hvalid k hk).1,two_le_pageID hreps⟩
        obtain ⟨hext2,hview⟩ := writeNode_spec hext1.wellFormed hdec hwrite
        refine ⟨hext1.trans hext2,keys,pages.map NodeRef.stored,pieces,hview,?_,hp.nonempty,rfl,hp.separates,
          hp.separates.keys_pairwise hp.ordered,hp.ordered,?_⟩
        · exact hreps.imp (fun _ _ hr => hr.mono hext2)
        · exact c.nodeFits_branch.mpr ⟨hp1.length_eq,hvalid,hfit⟩

theorem Represents.height_unique (hr : Represents c tx kind h ref es) (hr' : Represents c tx kind h' ref es') : h = h' := by
  induction h generalizing h' ref es es' with
  | zero =>
    cases h' with
    | zero => rfl
    | succ h' =>
      obtain ⟨keys,children,pieces,hv,-⟩ := hr'.parts
      cases hr.1.loads.symm.trans hv.loads
  | succ h ih =>
    obtain ⟨keys,children,pieces,hv,hp,-,-⟩ := hr.parts
    cases h' with
    | zero => cases hr'.1.loads.symm.trans hv.loads
    | succ h' =>
      obtain ⟨keys',children',pieces',hv',hp',-,-⟩ := hr'.parts
      have hnode := hv.loads.symm.trans hv'.loads
      simp only [Except.ok.injEq,TreeNode.branch.injEq] at hnode
      obtain ⟨rfl,rfl,-⟩ := hnode
      obtain ⟨p,pieces,rfl⟩ := exists_cons_of_ne_nil hp.separates.1
      obtain ⟨child,children,hchild,-,rfl⟩ := forall₂_cons_right_iff.mp hp.children
      obtain ⟨p',pieces',hchild',-,-⟩ := forall₂_cons_left_iff.mp hp'.children
      rw [ih hchild hchild']

theorem Represents.exists_page (hr : Represents c tx kind h (.stored page) es) (hi : i ≤ h) :
    ∃ page' es', Represents c tx kind i (.stored page') es' := by
  induction h generalizing page es with
  | zero => exact ⟨page,es,by rwa [Nat.le_zero.mp hi]⟩
  | succ h ih =>
    rcases Nat.lt_or_eq_of_le hi with hlt | rfl
    · obtain ⟨keys,children,pieces,hv,hp,-,-⟩ := hr.parts
      obtain ⟨p,pieces,rfl⟩ := exists_cons_of_ne_nil hp.separates.1
      obtain ⟨child,children,hchild,-,rfl⟩ := forall₂_cons_right_iff.mp hp.children
      -- the node was read from a page, so its children are stored as well
      obtain ⟨node,href,hcheck⟩ := bind_eq_ok.mp hv.loads
      have hnode : node = .branch keys (child::children) es.length := by
        split at hcheck
        · cases hcheck; rfl
        · cases hcheck
      have hstored : ∃ page', child = .stored page' := by
        unfold reference at href
        split at href
        · cases href
        split at href
        · cases href
        next pageKind n _ =>
        split at href
        · rw [hnode] at href
          cases n with
          | leaf entries count => simp [TreeNode.mapChildren] at href
          | branch ks cs count =>
            simp only [TreeNode.mapChildren,Except.ok.injEq,TreeNode.branch.injEq] at href
            cases cs with
            | nil => simp at href
            | cons page' cs =>
              simp only [map_cons,List.cons.injEq] at href
              exact ⟨page',href.2.1.1.symm⟩
        · cases href
      obtain ⟨page',rfl⟩ := hstored
      exact ih hchild (by omega)
    · exact ⟨page,es,hr⟩

theorem Represents.page_unique (hr : Represents c tx kind h (.stored page) es) (hr' : Represents c tx kind h' (.stored page') es')
    (hid : page.pageID = page'.pageID) : page = page' := by
  obtain ⟨node,hv,hn⟩ := hr.exists_view
  obtain ⟨node',hv',hn'⟩ := hr'.exists_view
  obtain ⟨n,href,hl⟩ := bind_eq_ok.mp hv.loads
  obtain ⟨n',href',hl'⟩ := bind_eq_ok.mp hv'.loads
  rw [← hid,href] at href'
  cases href'
  have hc : page.count = page'.count := by
    split at hl
    · next h1 =>
      split at hl'
      · next h2 => rw [h1,h2]
      · cases hl'
    · cases hl
  cases page
  cases page'
  cases hid
  cases hc
  rfl

theorem Represents.height_lt (hr : Represents c tx kind h (.stored page) es) : h < tx.nextPage := by
  choose pageAt entriesAt hat using fun i : Fin (h+1) => hr.exists_page (Nat.le_of_lt_succ i.isLt)
  have hinj : Function.Injective (fun i => (pageAt i).pageID) := by
    intro i j hij
    have hpage := (hat i).page_unique (hat j) hij
    have hi := hat i
    rw [hpage] at hi
    exact Fin.ext (hi.height_unique (hat j))
  have hcard : (Finset.univ : Finset (Fin (h+1))).card ≤ (Finset.range tx.nextPage).card :=
    Finset.card_le_card_of_injOn (fun i => (pageAt i).pageID)
      (fun i _ => Finset.mem_coe.mpr (Finset.mem_range.mpr (hat i).allocated.2.1)) hinj.injOn
  rw [Finset.card_univ,Fintype.card_fin,Finset.card_range] at hcard
  exact hcard

theorem openTree_spec (hr : Represents c tx kind h (.stored page) es) :
    MutableTree.openTree c tx page.pageID kind = .ok ⟨kind,.stored page,tx.nextPage⟩ := by
  obtain ⟨node,hv,-⟩ := hr.exists_view
  obtain ⟨n,href,hl⟩ := bind_eq_ok.mp hv.loads
  have hzero : page.pageID ≠ 0 := by
    have := hr.allocated.1
    omega
  have hcount : page.count = n.count := by
    split at hl
    · assumption
    · cases hl
  simp only [MutableTree.openTree,hzero,if_false,href,ok_bind,pure_eq_ok,← hcount]

end Meldbase.Storage
