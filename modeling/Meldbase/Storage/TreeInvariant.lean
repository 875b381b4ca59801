import Meldbase.Storage.TreePieces

/-! # What a tree represents

`Represents h ref es` says that the subtree behind `ref` has all leaves at depth
`h` and holds the entries `es` in key order: every node fits its page, carries
the right entry count, and every separator is the lowest key to its right.
-/
namespace Meldbase.Storage
open List
open Entries ListSurgery Outcome
variable {B K V : Type} [LinearOrder K] (c : TreeCodec B K V)

/-- A reference shows a node; stored references stand on allocated pages. -/
structure Views (tx : WriteTxn B) (kind : TreeKind) (ref : NodeRef K V) (node : TreeNode K V (NodeRef K V)) : Prop where
  loads : c.load tx kind ref = .ok node
  allocated : ∀ page, ref = .stored page → tx.Allocated page.pageID

/-- The subtree behind `ref` has uniform height `h` and holds `es`. -/
def Represents (tx : WriteTxn B) (kind : TreeKind) : ℕ → NodeRef K V → List (K × V) → Prop
  | 0, ref, es =>
    Views c tx kind ref (.leaf es es.length) ∧ Ordered es ∧
      c.nodeFits (.leaf es es.length : TreeNode K V (NodeRef K V)) = true
  | h+1, ref, es =>
    ∃ keys children pieces, Views c tx kind ref (.branch keys children es.length) ∧
      Forall₂ (Represents tx kind h) children pieces ∧ (∀ p ∈ pieces, p ≠ []) ∧
      pieces.flatten = es ∧ Separates keys pieces ∧ keys.Pairwise (· < ·) ∧ Ordered es ∧
      c.nodeFits (.branch keys children es.length : TreeNode K V (NodeRef K V)) = true

variable {c} {tx tx' : WriteTxn B} {kind : TreeKind} {ref : NodeRef K V} {h : ℕ} {es : List (K × V)}
  {pieces : List (List (K × V))}

theorem exists_depth {depth : ℕ} (hd : h < depth) : ∃ rest, depth = rest+1 :=
  Nat.exists_eq_succ_of_ne_zero (Nat.ne_zero_of_lt hd)

theorem Views.loaded (node : TreeNode K V (NodeRef K V)) : Views c tx kind (.loaded node) node :=
  ⟨rfl,fun _ h => nomatch h⟩

theorem Views.count_eq (h : Views c tx kind ref node) : ref.count = node.count := by
  have hl := h.loads
  cases ref with
  | loaded n => cases hl; rfl
  | stored page =>
    obtain ⟨n,-,hl⟩ := bind_eq_ok.mp hl
    split at hl
    · next hc => cases hl; exact hc
    · cases hl

theorem Views.mono (h : Views c tx kind ref node)
    (hext : tx.Extends tx') : Views c tx' kind ref node := by
  refine ⟨?_,fun page hp => hext.allocated _ (h.allocated page hp)⟩
  cases ref with
  | loaded n => exact h.loads
  | stored page =>
    have hread := hext.readPage page.pageID (h.allocated page rfl)
    have hl := h.loads
    simp only [TreeCodec.load,TreeCodec.reference] at hl ⊢
    rw [hread]
    exact hl

theorem Represents.ordered (hr : Represents c tx kind h ref es) : Ordered es := by
  cases h with
  | zero => exact hr.2.1
  | succ h =>
    obtain ⟨keys,children,pieces,-,-,-,-,-,-,ho,-⟩ := hr
    exact ho

theorem Represents.exists_view (hr : Represents c tx kind h ref es) :
    ∃ node, Views c tx kind ref node ∧ node.count = es.length := by
  cases h with
  | zero => exact ⟨_,hr.1,rfl⟩
  | succ h =>
    obtain ⟨keys,children,pieces,hv,-⟩ := hr
    exact ⟨_,hv,rfl⟩

theorem Represents.count_eq (hr : Represents c tx kind h ref es) : ref.count = es.length := by
  obtain ⟨node,hv,hc⟩ := hr.exists_view
  rw [hv.count_eq,hc]

theorem Represents.allocated (hr : Represents c tx kind h (.stored page) es) : tx.Allocated page.pageID := by
  obtain ⟨node,hv,-⟩ := hr.exists_view
  exact hv.allocated page rfl

theorem Represents.validKeys (hr : Represents c tx kind h ref es) : ∀ e ∈ es, c.ValidKey e.1 := by
  induction h generalizing ref es with
  | zero => exact ((c.nodeFits_leaf).mp hr.2.2).1
  | succ h ih =>
    obtain ⟨keys,children,pieces,-,hch,-,rfl,-⟩ := hr
    intro e he
    obtain ⟨p,hp,he⟩ := mem_flatten.mp he
    obtain ⟨i,hi,rfl⟩ := getElem_of_mem hp
    exact ih (Forall₂.get hch (hch.length_eq ▸ hi) hi) e he

theorem Represents.mono (hext : tx.Extends tx')
    (hr : Represents c tx kind h ref es) : Represents c tx' kind h ref es := by
  induction h generalizing ref es with
  | zero => exact ⟨hr.1.mono hext,hr.2⟩
  | succ h ih =>
    obtain ⟨keys,children,pieces,hv,hch,hrest⟩ := hr
    exact ⟨keys,children,pieces,hv.mono hext,hch.imp (fun _ _ hc => ih hc),hrest⟩

theorem represents_leaf (ho : Ordered es) (hv : ∀ e ∈ es, c.ValidKey e.1)
    (hfit : 32 + (es.map c.leafCost).sum ≤ pageCapacity) :
    Represents c tx kind 0 (.loaded (.leaf es es.length)) es :=
  ⟨Views.loaded _,ho,c.nodeFits_leaf.mpr ⟨hv,hfit⟩⟩

theorem sum_count_eq (hch : Forall₂ (Represents c tx kind h) children pieces) :
    (children.map NodeRef.count).sum = pieces.flatten.length := by
  induction hch with
  | nil => rfl
  | cons hr _ ih => simp only [map_cons,sum_cons,flatten_cons,length_append,ih,hr.count_eq]

theorem separators_valid {keys : List K} (hsep : Forall₂ IsMinKey keys pieces)
    (hv : ∀ e ∈ pieces.flatten, c.ValidKey e.1) : ∀ k ∈ keys, c.ValidKey k := by
  induction hsep with
  | nil => simp
  | @cons k p keys pieces hk _ ih =>
    rw [flatten_cons,forall_mem_append] at hv
    obtain ⟨v,rest,rfl⟩ := hk
    exact forall_mem_cons.mpr ⟨hv.1 _ mem_cons_self,ih hv.2⟩

theorem Separates.keys_valid {keys : List K} (hsep : Separates keys pieces)
    (hv : ∀ e ∈ pieces.flatten, c.ValidKey e.1) : ∀ k ∈ keys, c.ValidKey k := by
  refine separators_valid hsep.2 (fun e he => hv e ?_)
  obtain ⟨p,hp,he⟩ := mem_flatten.mp he
  exact mem_flatten.mpr ⟨p,mem_of_mem_tail hp,he⟩

omit [LinearOrder K] in
theorem Separates.length_eq {keys : List K} (hsep : Separates keys pieces) :
    pieces.length = keys.length+1 := by
  have h := hsep.2.length_eq
  have hpos := length_pos_iff.mpr hsep.1
  rw [length_tail] at h
  omega

structure Parts (c : TreeCodec B K V) (tx : WriteTxn B) (kind : TreeKind) (h : ℕ) (keys : List K)
    (children : List (NodeRef K V)) (pieces : List (List (K × V))) : Prop where
  children : Forall₂ (Represents c tx kind h) children pieces
  nonempty : ∀ p ∈ pieces, p ≠ []
  separates : Separates keys pieces
  ordered : Ordered pieces.flatten

namespace Parts
variable {h : ℕ} {keys : List K} {children : List (NodeRef K V)} {pieces : List (List (K × V))}

theorem length_eq (hp : Parts c tx kind h keys children pieces) : children.length = keys.length+1 :=
  hp.children.length_eq.trans hp.separates.length_eq

theorem validKeys (hp : Parts c tx kind h keys children pieces) : ∀ e ∈ pieces.flatten, c.ValidKey e.1 := by
  intro e he
  obtain ⟨p,hp',he⟩ := mem_flatten.mp he
  obtain ⟨i,hi,rfl⟩ := getElem_of_mem hp'
  exact (Forall₂.get hp.children (hp.children.length_eq ▸ hi) hi).validKeys e he

theorem represents (hp : Parts c tx kind h keys children pieces)
    (hfit : 32 + (keys.map c.branchCost).sum ≤ pageCapacity) (hn : n = pieces.flatten.length) :
    Represents c tx kind (h+1) (.loaded (.branch keys children n)) pieces.flatten := by
  subst hn
  exact ⟨keys,children,pieces,Views.loaded _,hp.children,hp.nonempty,rfl,hp.separates,
    hp.separates.keys_pairwise hp.ordered,hp.ordered,
    c.nodeFits_branch.mpr ⟨hp.length_eq,hp.separates.keys_valid hp.validKeys,hfit⟩⟩

end Parts

theorem Represents.parts (hr : Represents c tx kind (h+1) ref es) :
    ∃ keys children pieces, Views c tx kind ref (.branch keys children es.length) ∧
      Parts c tx kind h keys children pieces ∧ pieces.flatten = es ∧
      32 + (keys.map c.branchCost).sum ≤ pageCapacity := by
  obtain ⟨keys,children,pieces,hv,hch,hne,rfl,hsep,-,ho,hfit⟩ := hr
  exact ⟨keys,children,pieces,hv,⟨hch,hne,hsep,ho⟩,rfl,(c.nodeFits_branch.mp hfit).2.2⟩

end Meldbase.Storage
