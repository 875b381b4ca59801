import Meldbase.Storage.TreeNode

/-! # Byte-balanced splits

An overfull leaf is cut at the boundary whose halves both fit a page and are of
most equal encoded size; an overfull branch promotes the separator with that
property.  The selection loops find a cut whenever one exists.
-/
namespace Meldbase.Storage
open List Option

/-- The best cut found so far, with the larger encoded half and the difference of the halves. -/
structure SplitChoice where
  (index largest skew : ℕ)
  deriving DecidableEq, Repr

/-- Keep the candidate cut if both halves fit and it is better balanced. -/
def considerSplit (leftSize rightSize : ℕ → ℕ) (best : Option SplitChoice) (index : ℕ) : Option SplitChoice :=
  let left := leftSize index
  let right := rightSize index
  if pageCapacity < left ∨ pageCapacity < right then best
  else
    let largest := max left right
    let skew := max left right - min left right
    match best with
    | none => some ⟨index,largest,skew⟩
    | some b => if largest < b.largest ∨ (largest = b.largest ∧ skew < b.skew) then some ⟨index,largest,skew⟩ else some b

/-- Whether both halves of a candidate cut fit a page. -/
def SplitFits (leftSize rightSize : ℕ → ℕ) (index : ℕ) : Prop :=
  leftSize index ≤ pageCapacity ∧ rightSize index ≤ pageCapacity

section Selection
variable {leftSize rightSize : ℕ → ℕ} {best : Option SplitChoice}

theorem considerSplit_index (h : (considerSplit leftSize rightSize best index).map SplitChoice.index = some i) :
    (i = index ∧ SplitFits leftSize rightSize i) ∨ best.map SplitChoice.index = some i := by
  unfold considerSplit at h
  dsimp only at h
  split at h
  · exact .inr h
  next hfit =>
  have hfits : SplitFits leftSize rightSize index := by unfold SplitFits; omega
  cases best with
  | none =>
    simp only [map_some,Option.some.injEq] at h
    exact .inl ⟨h.symm,h ▸ hfits⟩
  | some b =>
    dsimp only at h
    split at h
    · simp only [map_some,Option.some.injEq] at h
      exact .inl ⟨h.symm,h ▸ hfits⟩
    · exact .inr h

theorem considerSplit_eq_none :
    considerSplit leftSize rightSize best index = none ↔ best = none ∧ ¬ SplitFits leftSize rightSize index := by
  unfold considerSplit SplitFits
  dsimp only
  split
  · next h =>
    have hno : ¬ (leftSize index ≤ pageCapacity ∧ rightSize index ≤ pageCapacity) := by omega
    simp [hno]
  next h =>
  have hyes : leftSize index ≤ pageCapacity ∧ rightSize index ≤ pageCapacity := by omega
  cases best with
  | none => simp [hyes]
  | some b => simp only [reduceCtorEq,false_and,iff_false]; split <;> simp

theorem foldl_considerSplit_index {l : List ℕ}
    (h : (l.foldl (considerSplit leftSize rightSize) best).map SplitChoice.index = some i) :
    (i ∈ l ∧ SplitFits leftSize rightSize i) ∨ best.map SplitChoice.index = some i := by
  induction l generalizing best with
  | nil => exact .inr h
  | cons x l ih =>
    rcases ih h with ⟨hi,hfit⟩ | hbest
    · exact .inl ⟨mem_cons_of_mem _ hi,hfit⟩
    rcases considerSplit_index hbest with ⟨rfl,hfit⟩ | hbest
    · exact .inl ⟨mem_cons_self,hfit⟩
    · exact .inr hbest

theorem foldl_considerSplit_eq_none {l : List ℕ} : l.foldl (considerSplit leftSize rightSize) best = none ↔
      best = none ∧ ∀ i ∈ l, ¬ SplitFits leftSize rightSize i := by
  induction l generalizing best with
  | nil => simp
  | cons x l ih => rw [foldl_cons,ih,considerSplit_eq_none,forall_mem_cons,and_assoc]

end Selection

namespace TreeCodec
variable {B K V : Type} [LinearOrder K] (c : TreeCodec B K V) {ρ : Type}

/-- The boundary that cuts a leaf into two fitting halves of most equal size. -/
def byteBalancedLeafSplit (entries : List (K × V)) : Option ℕ :=
  if entries.length < 2 then none
  else match entryCosts (entries.map c.leafEntryEncodedSize) with
    | none => none
    | some costs =>
      (((List.range entries.length).drop 1).foldl (considerSplit
        (fun boundary => 32 + (costs.take boundary).sum)
        (fun boundary => 32 + (costs.sum - (costs.take boundary).sum))) none).map SplitChoice.index
def byteBalancedBranchSplit (keys : List K) (children : List ρ) : Option ℕ :=
  if keys.length = 0 ∨ children.length ≠ keys.length+1 then none
  else match entryCosts (keys.map c.branchEntryEncodedSize) with
    | none => none
    | some costs =>
      ((List.range keys.length).foldl (considerSplit (fun promoted => 32 + (costs.take promoted).sum)
        (fun promoted => 32 + (costs.sum - (costs.take (promoted+1)).sum))) none).map SplitChoice.index

theorem sum_sub_sum_take (costs : List ℕ) (i : ℕ) : costs.sum - (costs.take i).sum = (costs.drop i).sum := by
  have h := sum_take_add_sum_drop costs i
  omega

theorem mem_range_drop_one : i ∈ (List.range n).drop 1 ↔ 0 < i ∧ i < n := by
  rw [range_eq_range',drop_range',mem_range']
  constructor
  · rintro ⟨j,hj,rfl⟩; omega
  · rintro ⟨h0,hn⟩; exact ⟨i - 1,by omega,by omega⟩

/-- Both halves of a chosen leaf boundary are non-empty and fit a page. -/
theorem byteBalancedLeafSplit_spec {entries : List (K × V)}
    (h : c.byteBalancedLeafSplit entries = some middle) :
    0 < middle ∧ middle < entries.length ∧ 32 + ((entries.take middle).map c.leafCost).sum ≤ pageCapacity ∧
      32 + ((entries.drop middle).map c.leafCost).sum ≤ pageCapacity := by
  unfold byteBalancedLeafSplit at h
  split at h
  · cases h
  split at h
  · cases h
  next costs hcosts =>
  have hc : costs = entries.map c.leafCost := entryCosts_map
    (fun e n he => ⟨(c.leafEntryEncodedSize_eq_ok.mp he).1,(c.leafEntryEncodedSize_eq_ok.mp he).2.2⟩) hcosts
  rcases foldl_considerSplit_index h with ⟨hi,hfit⟩ | hbest
  · obtain ⟨h0,hn⟩ := mem_range_drop_one.mp hi
    obtain ⟨hl,hr⟩ := hfit
    simp only [sum_sub_sum_take] at hr
    exact ⟨h0,hn,by simpa [hc,map_take] using hl,by simpa [hc,map_drop] using hr⟩
  · cases hbest

/-- With measurable entries the leaf split fails exactly when no boundary leaves two fitting halves. -/
theorem byteBalancedLeafSplit_eq_none {entries : List (K × V)}
    (hsize : ∀ e ∈ entries, c.leafEntryEncodedSize e = .ok (c.leafLength e)) :
    c.byteBalancedLeafSplit entries = none ↔ ∀ i, 0 < i → i < entries.length →
        ¬ (32 + ((entries.take i).map c.leafCost).sum ≤ pageCapacity ∧
           32 + ((entries.drop i).map c.leafCost).sum ≤ pageCapacity) := by
  have hcosts : entryCosts (entries.map c.leafEntryEncodedSize) = some (entries.map c.leafCost) :=
    entryCosts_of_ok hsize
  unfold byteBalancedLeafSplit
  rw [hcosts]
  split
  · simp only [true_iff]
    intro i h0 hn
    omega
  · simp only [map_eq_none_iff,foldl_considerSplit_eq_none,true_and,mem_range_drop_one,SplitFits,
      sum_sub_sum_take,map_take,map_drop,and_imp]

/-- Both halves around a promoted separator fit a page. -/
theorem byteBalancedBranchSplit_spec {keys : List K}
    (h : c.byteBalancedBranchSplit keys children = some middle) :
    middle < keys.length ∧ children.length = keys.length+1 ∧
      32 + ((keys.take middle).map c.branchCost).sum ≤ pageCapacity ∧
      32 + ((keys.drop (middle+1)).map c.branchCost).sum ≤ pageCapacity := by
  unfold byteBalancedBranchSplit at h
  split at h
  · cases h
  next hshape =>
  split at h
  · cases h
  next costs hcosts =>
  have hc : costs = keys.map c.branchCost :=
    entryCosts_map (fun k n hk => c.branchEntryEncodedSize_eq_ok.mp hk) hcosts
  rcases foldl_considerSplit_index h with ⟨hi,hl,hr⟩ | hbest
  · simp only [sum_sub_sum_take] at hr
    refine ⟨mem_range.mp hi,by omega,?_,?_⟩
    · simpa [hc,map_take] using hl
    · simpa [hc,map_drop] using hr
  · cases hbest

theorem byteBalancedBranchSplit_eq_none {keys : List K} (hkeys : ∀ k ∈ keys, c.ValidKey k)
    (hne : keys ≠ []) (hlen : children.length = keys.length+1) :
    c.byteBalancedBranchSplit keys children = none ↔ ∀ i, i < keys.length →
        ¬ (32 + ((keys.take i).map c.branchCost).sum ≤ pageCapacity ∧
           32 + ((keys.drop (i+1)).map c.branchCost).sum ≤ pageCapacity) := by
  have hcosts : entryCosts (keys.map c.branchEntryEncodedSize) = some (keys.map c.branchCost) :=
    entryCosts_of_ok (fun k hk => c.branchEntryEncodedSize_eq_ok.mpr ⟨hkeys k hk,rfl⟩)
  have hshape : ¬ (keys.length = 0 ∨ children.length ≠ keys.length+1) := by
    simp [hne,hlen]
  unfold byteBalancedBranchSplit
  rw [hcosts,if_neg hshape]
  simp only [map_eq_none_iff,foldl_considerSplit_eq_none,true_and,mem_range,SplitFits,
    sum_sub_sum_take,map_take,map_drop]

end TreeCodec
end Meldbase.Storage
