import Mathlib.Logic.Equiv.Basic
import Meldbase.Library.ComparisonSort

/-! # Binary heaps

A list whose element at index `k` does not exceed the one at `(k - 1) / 2`,
kept so by moving an element up or down through exchanges.
-/
namespace BinaryHeap
open List Comparison Nat
variable {α : Type*}

/-- Exchanges two elements. -/
def swap (l : List α) (i j : ℕ) : List α :=
  match l[i]?, l[j]? with
  | some a, some b => (l.set i b).set j a
  | _, _ => l

variable (cmp : α → α → Ordering)

def exceeds (l : List α) (i j : ℕ) : Bool :=
  match l[i]?, l[j]? with
  | some a, some b => cmp a b = .gt
  | _, _ => false

@[simp] theorem length_swap (l : List α) (i j : ℕ) : (swap l i j).length = l.length := by
  unfold swap
  split <;> simp

/-- Moves an element up past the parents it exceeds. -/
def up (cmp : α → α → Ordering) (l : List α) (j : ℕ) : List α :=
  if (j - 1) / 2 = j ∨ !exceeds cmp l j ((j - 1) / 2) then l
  else up cmp (swap l ((j - 1) / 2) j) ((j - 1) / 2)
termination_by j
decreasing_by omega

/-- The greater child, the left one of two equal ones. -/
def child (l : List α) (i : ℕ) : ℕ :=
  if 2*i+2 < l.length ∧ exceeds cmp l (2*i+2) (2*i+1) then 2*i+2 else 2*i+1

theorem child_eq (l : List α) (i : ℕ) : child cmp l i = 2*i+1 ∨ child cmp l i = 2*i+2 ∧ 2*i+2 < l.length := by
  unfold child
  split_ifs with h
  · exact .inr ⟨rfl,h.1⟩
  · exact .inl rfl

/-- Moves an element down past the greater of its children. -/
def down (cmp : α → α → Ordering) (l : List α) (i : ℕ) : List α :=
  if l.length ≤ 2*i+1 ∨ !exceeds cmp l (child cmp l i) i then l
  else down cmp (swap l i (child cmp l i)) (child cmp l i)
termination_by l.length - i
decreasing_by
  have := child_eq cmp l i
  rw [length_swap]
  omega
def push (l : List α) (x : α) : List α := up cmp (l ++ [x]) l.length

variable {cmp : α → α → Ordering} {l : List α} {i j k : ℕ}

/-! ### Exchanges -/

theorem swap_perm (l : List α) (i j : ℕ) : (swap l i j).Perm l := by
  unfold swap
  split
  · next a b ha hb =>
    obtain ⟨hi,rfl⟩ := List.getElem?_eq_some_iff.mp ha
    obtain ⟨hj,rfl⟩ := List.getElem?_eq_some_iff.mp hb
    exact set_set_perm hi hj
  · exact Perm.refl l

theorem getElem?_swap (hi : i < l.length) (hj : j < l.length) (k : ℕ) : (swap l i j)[k]? = l[Equiv.swap i j k]? := by
  unfold swap
  rw [getElem?_eq_getElem hi,getElem?_eq_getElem hj,Equiv.swap_apply_def]
  split_ifs <;> grind

theorem up_perm (cmp : α → α → Ordering) (l : List α) (j : ℕ) : (up cmp l j).Perm l := by
  fun_induction up cmp l j with
  | case1 => exact Perm.refl _
  | case2 l j _ ih => exact ih.trans (swap_perm l _ j)

theorem down_perm (cmp : α → α → Ordering) (l : List α) (i : ℕ) : (down cmp l i).Perm l := by
  fun_induction down cmp l i with
  | case1 => exact Perm.refl _
  | case2 l i _ ih => exact ih.trans (swap_perm l i _)

theorem push_perm (cmp : α → α → Ordering) (l : List α) (x : α) : (push cmp l x).Perm (x::l) :=
  (up_perm cmp _ _).trans (perm_append_singleton x l)

/-! ### Heap order -/

/-- The element at the second index does not exceed the one at the first. -/
def Above (cmp : α → α → Ordering) (l : List α) (i j : ℕ) : Prop :=
  ∀ a b, l[i]? = some a → l[j]? = some b → cmp a b ≠ .lt
def IsHeap (cmp : α → α → Ordering) (l : List α) : Prop := ∀ k, Above cmp l ((k - 1) / 2) k

theorem above_of_exceeds (h : exceeds cmp l i j = true) : Above cmp l i j := by
  intro a b ha hb hlt
  simp [exceeds,ha,hb,hlt] at h

theorem above_swap (hi : i < l.length) (hj : j < l.length) (p k : ℕ) :
    Above cmp (swap l i j) p k ↔ Above cmp l (Equiv.swap i j p) (Equiv.swap i j k) := by
  rw [Above,getElem?_swap hi hj,getElem?_swap hi hj]
  rfl

section
variable (hS : PreorderOn cmp {a | a ∈ l})
include hS

theorem Above.refl (i : ℕ) : Above cmp l i i := by
  intro a b ha hb hlt
  cases ha.symm.trans hb
  have hswap := hS.swap a (mem_of_getElem? ha) a (mem_of_getElem? ha)
  rw [hlt] at hswap
  cases hswap

theorem Above.trans (hj : j < l.length) (hij : Above cmp l i j) (hjk : Above cmp l j k) : Above cmp l i k := by
  intro a c ha hc
  have hb := getElem?_eq_getElem hj
  have haS := mem_of_getElem? ha
  have hbS := mem_of_getElem? hb
  have hcS := mem_of_getElem? hc
  have hba := hij a _ ha hb
  have hcb := hjk _ c hb hc
  have hca := hS.trans c hcS _ hbS a haS
  rw [hS.swap _ hbS c hcS,hS.swap a haS _ hbS,hS.swap a haS c hcS] at hca
  intro hlt
  rw [hlt] at hca
  generalize cmp l[j] c = o at hca hcb
  generalize cmp a l[j] = o' at hca hba
  cases o <;> cases o' <;> simp_all [Ordering.swap]

theorem above_of_not_exceeds (h : exceeds cmp l i j = false) : Above cmp l j i := by
  intro b a hb ha hlt
  have hgt : cmp a b = .gt := by
    rw [hS.swap b (mem_of_getElem? hb) a (mem_of_getElem? ha),hlt]
    rfl
  simp [exceeds,ha,hb,hgt] at h

omit hS in
theorem preorderOn_swap (hS : PreorderOn cmp {a | a ∈ l}) (i j : ℕ) : PreorderOn cmp {a | a ∈ swap l i j} := by
  have hset : {a | a ∈ swap l i j} = {a | a ∈ l} := Set.ext fun a => (swap_perm l i j).mem_iff
  rwa [hset]

end

section
variable (hS : PreorderOn cmp {a | a ∈ l})
include hS

theorem up_isHeap (hj : j < l.length) (h : ∀ k, k ≠ j → Above cmp l ((k - 1) / 2) k)
    (hskip : 0 < j → ∀ k, (k - 1) / 2 = j → Above cmp l ((j - 1) / 2) k) : IsHeap cmp (up cmp l j) := by
  fun_induction up cmp l j with
  | case1 l j hstop =>
    intro k
    by_cases hk : k = j
    · subst hk
      rcases hstop with hroot | hle
      · rw [hroot]
        exact Above.refl hS k
      · exact above_of_not_exceeds hS (by simpa using hle)
    · exact h k hk
  | case2 l j hmove ih =>
    obtain ⟨hne,hgt⟩ := not_or.mp hmove
    have hgt : Above cmp l j ((j - 1) / 2) := above_of_exceeds (by simpa using hgt)
    generalize hi : (j - 1) / 2 = i at *
    have hil : i < l.length := by omega
    have hij : i ≠ j := hne
    refine ih (preorderOn_swap hS i j) (by rwa [length_swap]) (fun k hk => ?_) (fun hpos k hk => ?_)
    · rw [above_swap hil hj]
      by_cases hkj : k = j
      · subst hkj
        rw [hi,Equiv.swap_apply_left,Equiv.swap_apply_right]
        exact hgt
      rw [Equiv.swap_apply_of_ne_of_ne hk hkj]
      have hk' := h k hkj
      rw [Equiv.swap_apply_def]
      split_ifs with hpi hpj
      · rw [hpi] at hk'
        exact hgt.trans hS hil hk'
      · exact hskip (by omega) k hpj
      · exact hk'
    have hi' := h i hij
    rw [above_swap hil hj,Equiv.swap_apply_of_ne_of_ne (by omega) (by omega)]
    by_cases hkj : k = j
    · rw [hkj,Equiv.swap_apply_right]
      exact hi'
    rw [Equiv.swap_apply_of_ne_of_ne (by omega) hkj]
    have hk' := h k hkj
    rw [hk] at hk'
    exact hi'.trans hS hil hk'

theorem child_above (hk : (k - 1) / 2 = i) (hpos : 0 < k) : Above cmp l (child cmp l i) k := by
  by_cases hlen : l.length ≤ k
  · intro a b _ hb
    rw [getElem?_eq_none hlen] at hb
    cases hb
  unfold child
  have hcases : k = 2*i+1 ∨ k = 2*i+2 := by omega
  split_ifs with hright <;> rcases hcases with rfl | rfl
  · exact above_of_exceeds hright.2
  · exact Above.refl hS _
  · exact Above.refl hS _
  · exact above_of_not_exceeds hS (by simpa using fun h => hright ⟨by omega,h⟩)

theorem down_isHeap (h : ∀ k, (k - 1) / 2 ≠ i → Above cmp l ((k - 1) / 2) k)
    (hskip : 0 < i → ∀ k, (k - 1) / 2 = i → Above cmp l ((i - 1) / 2) k) : IsHeap cmp (down cmp l i) := by
  fun_induction down cmp l i with
  | case1 l i hstop =>
    intro k
    by_cases hk : (k - 1) / 2 = i
    · rw [hk]
      by_cases hpos : 0 < k
      · by_cases hlen : l.length ≤ 2*i+1
        · intro a b _ hb
          rw [getElem?_eq_none (by omega)] at hb
          cases hb
        have hchild := child_eq cmp l i
        have hle := above_of_not_exceeds hS (by simpa using hstop.resolve_left hlen)
        exact hle.trans hS (by omega) (child_above hS hk hpos)
      · rw [show k = i by omega]
        exact Above.refl hS i
    · exact h k hk
  | case2 l i hmove ih =>
    obtain ⟨hlen,hgt⟩ := not_or.mp hmove
    have hgt : Above cmp l (child cmp l i) i := above_of_exceeds (by simpa using hgt)
    have hbest := fun k => child_above (i := i) (k := k) hS
    have hchild := child_eq cmp l i
    generalize child cmp l i = j at *
    have hi : i < l.length := by omega
    have hj : j < l.length := by omega
    refine ih (preorderOn_swap hS i j) (fun k hk => ?_) (fun _ k hk => ?_)
    · rw [above_swap hi hj]
      by_cases hp : (k - 1) / 2 = i
      · rw [hp,Equiv.swap_apply_left,Equiv.swap_apply_def]
        split_ifs with hki hkj
        · exact Above.refl hS j
        · exact hgt
        · exact hbest k hp (by omega)
      rw [Equiv.swap_apply_of_ne_of_ne hp hk,Equiv.swap_apply_def]
      split_ifs with hki hkj
      · subst hki
        exact hskip (by omega) j (by omega)
      · omega
      · exact h k hp
    have hk' := h k (by omega)
    rw [hk] at hk'
    rw [above_swap hi hj,show (j - 1) / 2 = i by omega,Equiv.swap_apply_left,Equiv.swap_apply_of_ne_of_ne (by omega) (by omega)]
    exact hk'

end

theorem IsHeap.push {x : α} (h : IsHeap cmp l) (hS : PreorderOn cmp {a | a ∈ x::l}) : IsHeap cmp (push cmp l x) := by
  have hset : {a | a ∈ l ++ [x]} = {a | a ∈ x::l} := Set.ext fun a => (perm_append_singleton x l).mem_iff
  refine up_isHeap (by rwa [hset]) (by simp) (fun k hk a b ha hb => ?_) (fun hpos k hk a b _ hb => ?_)
  · rcases lt_or_ge k l.length with hlt | hge
    · rw [getElem?_append_left (by omega)] at ha hb
      exact h k a b ha hb
    · rw [getElem?_eq_none (by simp; omega)] at hb
      cases hb
  · rw [getElem?_eq_none (by simp; omega)] at hb
    cases hb

theorem IsHeap.replace {w x : α} (h : IsHeap cmp (w::l)) (hS : PreorderOn cmp {a | a ∈ x::l}) :
    IsHeap cmp (down cmp (x::l) 0) := by
  refine down_isHeap hS (fun k hk => ?_) (fun hpos => absurd hpos (lt_irrefl 0))
  obtain ⟨p,hp⟩ := exists_eq_succ_of_ne_zero hk
  obtain ⟨k,rfl⟩ := exists_eq_succ_of_ne_zero (show k ≠ 0 by omega)
  have hparent := h (k+1)
  rw [hp] at hparent ⊢
  exact hparent

theorem IsHeap.root_above (h : IsHeap cmp l) (hS : PreorderOn cmp {a | a ∈ l}) (k : ℕ) : Above cmp l 0 k := by
  induction k using Nat.strong_induction_on with
  | _ k ih =>
    by_cases hk : k = 0
    · rw [hk]
      exact Above.refl hS 0
    intro a b ha hb
    have hlen := (List.getElem?_eq_some_iff.mp hb).1
    exact (ih ((k - 1) / 2) (by omega)).trans hS (by omega) (h k) a b ha hb

end BinaryHeap
