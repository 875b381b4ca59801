import Meldbase.Library.BinaryHeap

/-! # Bounded heaps

A heap of at most `k` elements that drops its greatest element for a lesser one
keeps the front of the sorted arrangement.
-/
namespace Comparison
open List
variable {α : Type*} {cmp : α → α → Ordering} {l items : List α}

def retain (cmp : α → α → Ordering) (k : ℕ) (items : List α) (x : α) : List α :=
  if k = 0 then items
  else if items.length < k then BinaryHeap.push cmp items x
  else match items with
    | [] => []
    | w::rest => if cmp x w = .lt then BinaryHeap.down cmp (x::rest) 0 else w::rest

theorem retain_subset {k : ℕ} {x y : α} (h : y ∈ retain cmp k items x) : y ∈ x::items := by
  unfold retain at h
  split_ifs at h
  · exact mem_cons_of_mem x h
  · exact (BinaryHeap.push_perm cmp items x).mem_iff.mp h
  split at h
  · cases h
  split_ifs at h
  · have hy := (BinaryHeap.down_perm cmp _ _).mem_iff.mp h
    simp only [mem_cons] at hy ⊢
    tauto
  · exact mem_cons_of_mem x h

/-- The retained elements are the first `k` of the given ones. -/
structure Front (cmp : α → α → Ordering) (k : ℕ) (l items : List α) : Prop where
  nodup : items.Nodup
  subset : ∀ a ∈ items, a ∈ l
  length : items.length = min k l.length
  below : ∀ a ∈ items, ∀ b ∈ l, b ∉ items → cmp a b = .lt

theorem Front.perm {k : ℕ} {items' : List α} (h : Front cmp k l items) (hp : items'.Perm items) :
    Front cmp k l items' where
  nodup := hp.nodup_iff.mpr h.nodup
  subset a ha := h.subset a (hp.mem_iff.mp ha)
  length := hp.length_eq.trans h.length
  below a ha b hb hn := h.below a (hp.mem_iff.mp ha) b hb (fun hm => hn (hp.mem_iff.mpr hm))

theorem Front.stableSort_eq {k : ℕ} (h : Front cmp k l items) (hS : LawfulOn cmp {a | a ∈ l})
    (hl : l.Nodup) : stableSort (lessBy cmp) items = (stableSort (lessBy cmp) l).take k := by
  classical
  let rest := l.filter (fun b => b ∉ items)
  have hmem : ∀ b, b ∈ rest ↔ b ∈ l ∧ b ∉ items := by simp [rest]
  have hrest : rest.Nodup := hl.filter _
  have hall : (items ++ rest).Perm l := by
    refine (perm_ext_iff_of_nodup ?_ hl).mpr (fun a => ?_)
    · exact nodup_append.mpr ⟨h.nodup,hrest,fun a ha b hb e => ((hmem b).mp hb).2 (e ▸ ha)⟩
    rw [mem_append,hmem]
    constructor
    · rintro (ha | ha)
      · exact h.subset a ha
      · exact ha.1
    intro ha
    by_cases hi : a ∈ items
    · exact .inl hi
    · exact .inr ⟨ha,hi⟩
  have hitems : LawfulOn cmp {a | a ∈ items} := hS.mono (fun a ha => h.subset a ha)
  have hrestS : LawfulOn cmp {a | a ∈ rest} := hS.mono (fun a ha => ((hmem a).mp ha).1)
  have hsorted : Sorted cmp (stableSort (lessBy cmp) items ++ stableSort (lessBy cmp) rest) := by
    refine pairwise_append.mpr ⟨stableSort_sorted hitems h.nodup,stableSort_sorted hrestS hrest,?_⟩
    intro a ha b hb
    obtain ⟨hb,hn⟩ := (hmem b).mp (mem_stableSort.mp hb)
    exact h.below a (mem_stableSort.mp ha) b hb hn
  have hperm : l.Perm (stableSort (lessBy cmp) items ++ stableSort (lessBy cmp) rest) :=
    hall.symm.trans ((stableSort_perm _ items).symm.append (stableSort_perm _ rest).symm)
  have hlen : items.length+rest.length = l.length := by
    rw [← length_append]
    exact hall.length_eq
  have hcount : items.length = min k l.length := h.length
  rw [Comparison.stableSort_eq (hS.mono (fun a ha => hperm.mem_iff.mpr ha)) hsorted hperm]
  rcases Nat.le_total k l.length with hk | hk
  · rw [take_left' (by rw [length_stableSort]; omega)]
  have hnil : rest = [] := eq_nil_of_length_eq_zero (by omega)
  rw [hnil,take_of_length_le (by simp only [length_append,length_stableSort,length_nil]; omega)]
  exact (append_nil _).symm

theorem Front.retain {k : ℕ} {x : α} (h : Front cmp k l items) (hheap : BinaryHeap.IsHeap cmp items)
    (hS : LawfulOn cmp {a | a ∈ x::l}) (hx : x ∉ l) :
    Front cmp k (l ++ [x]) (retain cmp k items x) ∧ BinaryHeap.IsHeap cmp (Comparison.retain cmp k items x) := by
  have hin : ∀ a ∈ items, a ∈ x::l := fun a ha => mem_cons_of_mem x (h.subset a ha)
  have hxS : x ∈ x::l := mem_cons_self
  have hnew : x ∉ items := fun hm => hx (h.subset x hm)
  have hcount : items.length = min k l.length := h.length
  unfold Comparison.retain
  split_ifs with hk hroom
  · refine ⟨⟨h.nodup,fun a ha => mem_append_left _ (h.subset a ha),?_,?_⟩,hheap⟩
    · rw [hcount,hk,Nat.zero_min,Nat.zero_min]
    intro a ha
    have hnil : items = [] := eq_nil_of_length_eq_zero (by rw [hcount,hk,Nat.zero_min])
    rw [hnil] at ha
    cases ha
  · -- There is room, so every element so far is retained.
    have hp := BinaryHeap.push_perm cmp items x
    have hfull : items.length = l.length := by omega
    refine ⟨Front.perm ⟨nodup_cons.mpr ⟨hnew,h.nodup⟩,?_,?_,?_⟩ hp,
      hheap.push (hS.mono (fun a ha => ?_)).toPreorderOn⟩
    · intro a ha
      rcases mem_cons.mp ha with rfl | ha
      · simp
      · exact mem_append_left _ (h.subset a ha)
    · simp only [length_cons,length_append,length_nil]
      omega
    · intro a _ b hb hn
      have hb : b ∈ l ∨ b = x := by simpa using hb
      rcases hb with hb | rfl
      · have hall : l ⊆ items := (List.Nodup.subperm h.nodup h.subset).perm_of_length_le hfull.ge |>.symm.subset
        exact absurd (mem_cons_of_mem x (hall hb)) hn
      · exact absurd mem_cons_self hn
    rcases mem_cons.mp ha with rfl | ha
    · exact hxS
    · exact hin a ha
  cases items with
  | nil =>
    rw [length_nil] at hroom
    omega
  | cons w rest =>
    have hwS : w ∈ x::l := hin w mem_cons_self
    have hwx : w ≠ x := fun e => hnew (e ▸ mem_cons_self)
    have hmost : ∀ a ∈ w::rest, cmp w a ≠ .lt := by
      intro a ha
      obtain ⟨i,hi⟩ := getElem?_of_mem ha
      exact hheap.root_above (hS.mono hin).toPreorderOn i w a rfl hi
    dsimp only
    split_ifs with hxw
    · -- The root gives way to the new element and lies above all that stay.
      have hp := BinaryHeap.down_perm cmp (x::rest) 0
      have hxr : x ∉ rest := fun hm => hnew (mem_cons_of_mem w hm)
      have hwr : w ∉ rest := (nodup_cons.mp h.nodup).1
      have hbelow : ∀ a ∈ x::rest, cmp a w = .lt := by
        intro a ha
        rcases mem_cons.mp ha with rfl | ha
        · exact hxw
        · exact hS.lt_of_not_lt hwS (hin a (mem_cons_of_mem w ha)) (fun e => hwr (e ▸ ha))
            (hmost a (mem_cons_of_mem w ha))
      have haS : ∀ a ∈ x::rest, a ∈ x::l := by
        intro a ha
        rcases mem_cons.mp ha with rfl | ha
        · exact hxS
        · exact hin a (mem_cons_of_mem w ha)
      refine ⟨Front.perm ⟨nodup_cons.mpr ⟨hxr,(nodup_cons.mp h.nodup).2⟩,?_,?_,?_⟩ hp,
        hheap.replace (hS.mono haS).toPreorderOn⟩
      · intro a ha
        rcases mem_cons.mp ha with rfl | ha
        · simp
        · exact mem_append_left _ (h.subset a (mem_cons_of_mem w ha))
      · simp only [length_cons,length_append,length_nil] at hcount hroom ⊢
        omega
      intro a ha b hb hn
      have hb : b ∈ l ∨ b = x := by simpa using hb
      rcases hb with hb | rfl
      · by_cases hbw : b = w
        · rw [hbw]
          exact hbelow a ha
        have hbn : b ∉ w::rest := fun hm => (mem_cons.mp hm).elim hbw (fun hm => hn (mem_cons_of_mem x hm))
        have hwb : cmp w b = .lt := h.below w mem_cons_self b hb hbn
        exact hS.lt_trans (haS a ha) hwS (mem_cons_of_mem x hb) (hbelow a ha) hwb
      · exact absurd mem_cons_self hn
    refine ⟨⟨h.nodup,fun a ha => mem_append_left _ (h.subset a ha),?_,?_⟩,hheap⟩
    · simp only [length_cons,length_append,length_nil] at hcount hroom ⊢
      omega
    intro a ha b hb hn
    have hb : b ∈ l ∨ b = x := by simpa using hb
    rcases hb with hb | rfl
    · exact h.below a ha b hb hn
    have hwx : cmp w b = .lt := hS.lt_of_not_lt hxS hwS hwx.symm hxw
    by_cases haw : a = w
    · rw [haw]
      exact hwx
    · have haw : cmp a w = .lt := hS.lt_of_not_lt hwS (hin a ha) (Ne.symm haw) (hmost a ha)
      exact hS.lt_trans (hin a ha) hwS hxS haw hwx

theorem foldl_retain_front {k : ℕ} (hS : LawfulOn cmp {a | a ∈ l}) (hl : l.Nodup) :
    Front cmp k l (l.foldl (retain cmp k) []) ∧ BinaryHeap.IsHeap cmp (l.foldl (Comparison.retain cmp k) []) := by
  induction l using List.reverseRecOn with
  | nil => exact ⟨⟨nodup_nil,by simp,by simp,by simp⟩,fun _ _ _ h => by simp at h⟩
  | append_singleton l x ih =>
    obtain ⟨hl,-,hx⟩ := nodup_append.mp hl
    have hx : x ∉ l := fun hm => hx x hm x (by simp) rfl
    obtain ⟨hf,hr⟩ := ih (hS.mono (fun a ha => mem_append_left _ ha)) hl
    rw [foldl_concat]
    exact hf.retain hr (hS.mono (fun a ha => by simpa [or_comm] using ha)) hx

end Comparison
