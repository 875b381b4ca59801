import Mathlib.Data.List.Chain
import Mathlib.Order.Lattice

/-! # Edits of a list at a cut point

Index based edits are restated at an append point, where the position is the
length of the part before it, and the first index satisfying a monotone test is
identified with such a cut.
-/
namespace Meldbase.ListSurgery
open List
variable {α β : Type*}
variable (l : List α)

@[simp] theorem set_length_append (a b : α) (r : List α) : (l ++ a::r).set l.length b = l ++ b::r := by
  simp [set_append_right]

@[simp] theorem insertIdx_length_append (a : α) (r : List α) : (l ++ r).insertIdx l.length a = l ++ a::r := by
  induction l with
  | nil => simp
  | cons x l ih => simp [ih]

@[simp] theorem eraseIdx_length_append (a : α) (r : List α) : (l ++ a::r).eraseIdx l.length = l ++ r := by
  simp [eraseIdx_append]

@[simp] theorem getElem?_length_append (r : List α) : (l ++ r)[l.length]? = r.head? := by
  cases r <;> simp

theorem exists_cut_of_lt {l : List α} {i : ℕ} (h : i < l.length) : ∃ a x b, l = a ++ x::b ∧ a.length = i := by
  refine ⟨l.take i,l[i],l.drop (i+1),?_,?_⟩
  · simp
  · exact length_take_of_le (Nat.le_of_lt h)

theorem findIdx_cut (p : α → Bool) (l : List α) :
    ∃ a b, l = a ++ b ∧ l.findIdx p = a.length ∧ (∀ x ∈ a, p x = false) ∧ ∀ x, b.head? = some x → p x = true := by
  induction l with
  | nil => exact ⟨[],[],rfl,rfl,by simp,by simp⟩
  | cons y l ih =>
    cases hy : p y with
    | true => exact ⟨[],y::l,rfl,by simp [findIdx_cons,hy],by simp,by simp [hy]⟩
    | false =>
      obtain ⟨a,b,rfl,hab,ha,hb⟩ := ih
      refine ⟨y::a,b,rfl,by simp [findIdx_cons,hy,hab],?_,hb⟩
      simpa [hy] using ha

theorem forall₂_append_left {R : α → β → Prop} {a b : List α} {c : List β} (h : Forall₂ R (a ++ b) c) :
    ∃ c1 c2, c = c1 ++ c2 ∧ Forall₂ R a c1 ∧ Forall₂ R b c2 := by
  have hf := h.flip
  exact ⟨c.take a.length,c.drop a.length,(take_append_drop _ _).symm,
    (forall₂_take_append _ _ _ hf).flip,(forall₂_drop_append _ _ _ hf).flip⟩

theorem forall₂_cut {R : α → β → Prop} {a b : List α} {x : α} {c : List β} (h : Forall₂ R (a ++ x::b) c) :
    ∃ c1 y c2, c = c1 ++ y::c2 ∧ c1.length = a.length ∧ Forall₂ R a c1 ∧ R x y ∧ Forall₂ R b c2 := by
  obtain ⟨c1,c',rfl,h1,h'⟩ := forall₂_append_left h
  cases h' with
  | cons hxy h2 => exact ⟨c1,_,_,rfl,h1.length_eq.symm,h1,hxy,h2⟩

/-- Sorted neighbours that differ increase strictly throughout. -/
theorem pairwise_lt_of_le_of_ne {K : Type*} [LinearOrder K] {f : α → K} {l : List α}
    (hle : l.Pairwise (fun a b => f a ≤ f b)) (hne : l.IsChain (fun a b => f a ≠ f b)) :
    l.Pairwise (fun a b => f a < f b) := by
  induction l with
  | nil => exact List.Pairwise.nil
  | cons x l ih =>
    obtain ⟨hx,hl⟩ := pairwise_cons.mp hle
    have hrest := ih hl hne.tail
    refine pairwise_cons.mpr ⟨?_,hrest⟩
    cases l with
    | nil => simp
    | cons y l =>
      have hxy : f x < f y := lt_of_le_of_ne (hx y mem_cons_self) (isChain_cons_cons.mp hne).1
      intro z hz
      rcases mem_cons.mp hz with rfl | hz
      · exact hxy
      · exact hxy.trans ((pairwise_cons.mp hrest).1 z hz)

theorem mem_modify {l : List α} {i : ℕ} {f : α → α} {x : α} (h : x ∈ l.modify i f) :
    x ∈ l ∨ ∃ y, l[i]? = some y ∧ x = f y := by
  obtain ⟨j,hj⟩ := mem_iff_getElem?.mp h
  rw [List.getElem?_modify] at hj
  by_cases hij : i = j
  · subst hij
    obtain ⟨y,hy,rfl⟩ := Option.map_eq_some_iff.mp hj
    exact .inr ⟨y,hy,by simp⟩
  · exact .inl (mem_of_getElem? (i := j) (by simpa [hij] using hj))

theorem modify_mem {l : List α} {i : ℕ} {f : α → α} {x : α} (h : x ∈ l) :
    x ∈ l.modify i f ∨ l[i]? = some x ∧ f x ∈ l.modify i f := by
  obtain ⟨j,hj⟩ := mem_iff_getElem?.mp h
  by_cases hij : i = j
  · subst hij
    exact .inr ⟨hj,mem_of_getElem? (i := i) (by simp [hj])⟩
  · exact .inl (mem_of_getElem? (i := j) (by simp [hj,hij]))

/-! ### Maximal runs -/

end Meldbase.ListSurgery
