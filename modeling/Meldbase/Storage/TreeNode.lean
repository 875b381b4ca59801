import Mathlib.Algebra.Order.BigOperators.Group.List
import Meldbase.Library.ListSurgery
import Meldbase.Library.SortedMap
import Meldbase.Storage.WriteTxn

/-! # Tree nodes and their encoded size

A node is a leaf with its entries or a branch with separators and child
references.  Whether a node fits a page is decided by encoded bytes: 32 header bytes, and for every entry an 8 byte slot
and the entry itself.
-/
namespace Meldbase.Storage
open List
open Outcome

structure PageRef where
  (pageID count : ℕ)
  deriving DecidableEq, Repr

/-- A leaf's entries or a branch's keys and child references, with the stored entry count. -/
inductive TreeNode (K V ρ : Type*) where
  | leaf (entries : List (K × V)) (count : ℕ)
  | branch (keys : List K) (children : List ρ) (count : ℕ)
  deriving DecidableEq, Repr

/-- A subtree, either unchanged on its page or rewritten in memory. -/
inductive NodeRef (K V : Type) where
  | stored (page : PageRef)
  | loaded (node : TreeNode K V (NodeRef K V))

namespace TreeNode
variable {K V ρ σ : Type*}

def count : TreeNode K V ρ → ℕ
  | .leaf _ count => count
  | .branch _ _ count => count
def keys : TreeNode K V ρ → List K
  | .leaf entries _ => entries.map Prod.fst
  | .branch keys _ _ => keys
def mapChildren (f : ρ → σ) : TreeNode K V ρ → TreeNode K V σ
  | .leaf entries count => .leaf entries count
  | .branch keys children count => .branch keys (children.map f) count

/-- What `decodeTreeNode` requires of a stored node. -/
def decodable [LinearOrder K] (keyLen : K → ℕ) : TreeNode K V PageRef → Bool
  | .leaf entries count =>
    (entries.map Prod.fst).Pairwise (· < ·) && entries.all (fun e => keyLen e.1 ≠ 0) && count == entries.length
  | .branch keys children count =>
    keys.Pairwise (· < ·) && keys.all (fun k => keyLen k ≠ 0) && children.all (fun child => 2 ≤ child.pageID)
      && children.length == keys.length+1 && count == (children.map PageRef.count).sum

end TreeNode

def NodeRef.count {K V : Type} : NodeRef K V → ℕ
  | .stored page => page.count
  | .loaded node => node.count

structure TreeCodec (B K V : Type) [LinearOrder K] where
  keyLen : K → ℕ
  valueLen : V → ℕ
  encode : TreeKind → TreeNode K V PageRef → B
  decode : B → Option (TreeKind × TreeNode K V PageRef)
  decode_encode : ∀ kind node, node.decodable keyLen = true → decode (encode kind node) = some (kind,node)

namespace TreeCodec
variable {B K V : Type} [LinearOrder K] (c : TreeCodec B K V) {ρ : Type}
variable (k : K)

def checkKey : Except StorageError Unit :=
  if c.keyLen k = 0 ∨ 4096 < c.keyLen k then .error .keyTooBig else .ok ()

variable (e : K × V)

def leafEntryEncodedSize : Except StorageError ℕ := do
  c.checkKey e.1
  if 2 ^ 32 - 1 < c.valueLen e.2 then .error .nodeFull else .ok (2+4+c.keyLen e.1+c.valueLen e.2)
def branchEntryEncodedSize : Except StorageError ℕ := do
  c.checkKey k
  return 2+c.keyLen k+16

/-- `treeNodeEntryEncodedSize` at every index of the node. -/
def treeNodeEntryEncodedSizes : TreeNode K V ρ → List (Except StorageError ℕ)
  | .leaf entries _ => entries.map c.leafEntryEncodedSize
  | .branch keys _ _ => keys.map c.branchEntryEncodedSize
def addEntry (size : ℕ) (entry : Except StorageError ℕ) : Except StorageError ℕ := do
  let entryLength ← entry
  if 65535 < entryLength ∨ pageCapacity < size+entryLength then .error .nodeFull else .ok (size+entryLength)

variable (node : TreeNode K V ρ)

def treeNodeEncodedSize : Except StorageError ℕ :=
  let shape := match node with
    | .leaf _ _ => true
    | .branch keys children _ => children.length == keys.length+1
  if 65535 < node.keys.length ∨ shape = false then .error .corrupt
  else (c.treeNodeEntryEncodedSizes node).foldlM addEntry (32+node.keys.length*8)
def nodeFits : Bool :=
  match c.treeNodeEncodedSize node with
  | .ok _ => true
  | .error _ => false

/-- Slot and entry bytes of every entry; `treeNodeEntryPrefix` holds their partial sums. -/
def entryCosts (sizes : List (Except StorageError ℕ)) : Option (List ℕ) :=
  sizes.mapM (fun entry =>
    match entry with
    | .ok entryLength => some (8+entryLength)
    | .error _ => none)

/-! ### Encoded sizes -/

def ValidKey : Prop := c.keyLen k ≠ 0 ∧ c.keyLen k ≤ 4096

instance (k : K) : Decidable (c.ValidKey k) := inferInstanceAs (Decidable (_ ∧ _))

def leafLength : ℕ := 2+4+c.keyLen e.1+c.valueLen e.2
def branchLength : ℕ := 2+c.keyLen k+16

/-- Page bytes of a leaf entry, slot included. -/
def leafCost : ℕ := 8+c.leafLength e

/-- Page bytes of a branch entry, slot included. -/
def branchCost : ℕ := 8+c.branchLength k

theorem leafEntryEncodedSize_eq_ok {e : K × V} :
    c.leafEntryEncodedSize e = .ok n ↔ c.ValidKey e.1 ∧ c.valueLen e.2 ≤ 2 ^ 32 - 1 ∧ n = c.leafLength e := by
  unfold leafEntryEncodedSize checkKey ValidKey leafLength
  split
  · next h => simp only [error_bind,reduceCtorEq,false_iff]; omega
  next h =>
  simp only [ok_bind]
  split
  · simp only [reduceCtorEq,false_iff]; omega
  · simp only [Except.ok.injEq]; omega

theorem branchEntryEncodedSize_eq_ok {k : K} :
    c.branchEntryEncodedSize k = .ok n ↔ c.ValidKey k ∧ n = c.branchLength k := by
  unfold branchEntryEncodedSize checkKey ValidKey branchLength
  split
  · next h => simp only [error_bind,reduceCtorEq,false_iff]; omega
  · next h => simp only [ok_bind,pure_eq_ok,Except.ok.injEq]; omega

section Sizes
variable {α : Type} {size : α → Except StorageError ℕ} {valid : α → Prop} {length : α → ℕ}

/-- The size loop succeeds exactly when all keys are valid and the total fits the page. -/
theorem foldlM_addEntry_ok (size : α → Except StorageError ℕ) (valid : α → Prop) (length : α → ℕ)
    (hsize : ∀ a n, size a = .ok n → valid a ∧ n = length a)
    (hvalid : ∀ a, valid a → length a ≤ pageCapacity → size a = .ok (length a)) (l : List α) (s : ℕ)
    (hs : l = [] → s ≤ pageCapacity) :
    (∃ t, (l.map size).foldlM addEntry s = .ok t) ↔
      (∀ a ∈ l, valid a) ∧ s + (l.map length).sum ≤ pageCapacity := by
  induction l generalizing s with
  | nil => simpa using hs rfl
  | cons a l ih =>
    simp only [map_cons,foldlM_cons,forall_mem_cons,sum_cons]
    constructor
    · rintro ⟨t,ht⟩
      obtain ⟨s',hs',ht⟩ := bind_eq_ok.mp ht
      obtain ⟨n,hn,hs'⟩ := bind_eq_ok.mp hs'
      split at hs'
      · cases hs'
      next hfit =>
      cases hs'
      obtain ⟨hv,rfl⟩ := hsize a n hn
      obtain ⟨hl,hsum⟩ := (ih (s+length a) (fun _ => by omega)).mp ⟨t,ht⟩
      exact ⟨⟨hv,hl⟩,by omega⟩
    rintro ⟨⟨hv,hl⟩,hsum⟩
    have hfit : ¬ (65535 < length a ∨ pageCapacity < s+length a) := by
      unfold pageCapacity pageSize pageHeaderSize at *
      omega
    obtain ⟨t,ht⟩ := (ih (s+length a) (fun _ => by omega)).mpr ⟨hl,by omega⟩
    refine ⟨t,bind_eq_ok.mpr ⟨s+length a,?_,ht⟩⟩
    rw [addEntry,hvalid a hv (by omega),ok_bind,if_neg hfit]

theorem sum_map_add_slots (length : α → ℕ) (l : List α) :
    (l.map (fun a => 8+length a)).sum = l.length*8 + (l.map length).sum := by
  induction l with
  | nil => rfl
  | cons a l ih => simp only [map_cons,sum_cons,length_cons,ih]; omega

theorem entryCosts_map (hsize : ∀ a n, size a = .ok n → valid a ∧ n = length a) {l : List α}
    (h : entryCosts (l.map size) = some costs) : costs = l.map (fun a => 8+length a) := by
  induction l generalizing costs with
  | nil => simpa [entryCosts] using h.symm
  | cons a l ih =>
    simp only [entryCosts,map_cons,mapM_cons] at h
    cases ha : size a with
    | error e => simp [ha] at h
    | ok n =>
      simp only [ha,Option.pure_def,Option.bind_eq_bind,Option.bind_some,Option.bind_eq_some_iff,
        Option.some.injEq] at h
      obtain ⟨rest,hrest,rfl⟩ := h
      rw [ih hrest,map_cons,(hsize a n ha).2]

theorem entryCosts_of_ok {l : List α} (h : ∀ a ∈ l, size a = .ok (length a)) :
    entryCosts (l.map size) = some (l.map (fun a => 8+length a)) := by
  induction l with
  | nil => rfl
  | cons a l ih =>
    obtain ⟨ha,hl⟩ := forall_mem_cons.mp h
    have ih := ih hl
    simp only [entryCosts] at ih ⊢
    simp [mapM_cons,ha,ih]

end Sizes

theorem leafEntryEncodedSize_of_valid {e : K × V} (hv : c.ValidKey e.1) (hlen : c.leafLength e ≤ pageCapacity) :
    c.leafEntryEncodedSize e = .ok (c.leafLength e) := by
  refine c.leafEntryEncodedSize_eq_ok.mpr ⟨hv,?_,rfl⟩
  unfold leafLength pageCapacity pageSize pageHeaderSize at hlen
  omega

theorem nodeFits_iff_exists : c.nodeFits node = true ↔ ∃ t, c.treeNodeEncodedSize node = .ok t := by
  unfold nodeFits
  cases c.treeNodeEncodedSize node <;> simp

theorem nodeFits_leaf : c.nodeFits (.leaf entries n : TreeNode K V ρ) = true ↔
      (∀ e ∈ entries, c.ValidKey e.1) ∧ 32 + (entries.map c.leafCost).sum ≤ pageCapacity := by
  have hloop := foldlM_addEntry_ok c.leafEntryEncodedSize (fun e => c.ValidKey e.1) c.leafLength
    (fun e n h => ⟨(c.leafEntryEncodedSize_eq_ok.mp h).1,(c.leafEntryEncodedSize_eq_ok.mp h).2.2⟩)
    (fun e hv hlen => c.leafEntryEncodedSize_of_valid hv hlen) entries (32+entries.length*8)
    (by rintro rfl; simp [pageCapacity,pageSize,pageHeaderSize])
  have hsum : (entries.map c.leafCost).sum = entries.length*8 + (entries.map c.leafLength).sum :=
    sum_map_add_slots c.leafLength entries
  rw [nodeFits_iff_exists,hsum]
  simp only [treeNodeEncodedSize,TreeNode.keys,length_map,treeNodeEntryEncodedSizes]
  by_cases h : 65535 < entries.length
  · simp only [h,true_or,if_true,reduceCtorEq,exists_false,false_iff,not_and,not_le]
    intro _
    unfold pageCapacity pageSize pageHeaderSize
    omega
  · simp only [h,false_or,reduceCtorEq,if_false,hloop,add_assoc]

theorem nodeFits_branch {keys : List K} :
    c.nodeFits (.branch keys children n : TreeNode K V ρ) = true ↔
      children.length = keys.length+1 ∧ (∀ k ∈ keys, c.ValidKey k) ∧
        32 + (keys.map c.branchCost).sum ≤ pageCapacity := by
  have hloop := foldlM_addEntry_ok c.branchEntryEncodedSize c.ValidKey c.branchLength
    (fun k n h => c.branchEntryEncodedSize_eq_ok.mp h)
    (fun k hv _ => c.branchEntryEncodedSize_eq_ok.mpr ⟨hv,rfl⟩) keys (32+keys.length*8)
    (by rintro rfl; simp [pageCapacity,pageSize,pageHeaderSize])
  have hsum : (keys.map c.branchCost).sum = keys.length*8 + (keys.map c.branchLength).sum :=
    sum_map_add_slots c.branchLength keys
  rw [nodeFits_iff_exists,hsum]
  simp only [treeNodeEncodedSize,TreeNode.keys,treeNodeEntryEncodedSizes,beq_eq_false_iff_ne]
  by_cases h : 65535 < keys.length ∨ children.length ≠ keys.length+1
  · simp only [h,if_true,reduceCtorEq,exists_false,false_iff,not_and,not_le]
    intro hlen _
    unfold pageCapacity pageSize pageHeaderSize
    omega
  simp only [h,if_false,hloop,add_assoc]
  simp only [not_or,not_not] at h
  simp [h.2]

end TreeCodec
end Meldbase.Storage
