import Mathlib.Data.List.Induction
import Mathlib.Data.List.Nodup
import Mathlib.Data.List.Perm.Subperm
import Mathlib.Data.Set.Basic

/-! # Sorting by a three-way comparison

A comparison need not be an order on its whole type; `LawfulOn` says that it
is one on the elements at hand.  There, a stable insertion sort produces the
only sorted arrangement.
-/
namespace Comparison
open List
variable {α : Type*}

structure PreorderOn (cmp : α → α → Ordering) (S : Set α) : Prop where
  swap : ∀ a ∈ S, ∀ b ∈ S, cmp b a = (cmp a b).swap
  trans : ∀ a ∈ S, ∀ b ∈ S, ∀ c ∈ S, cmp a b ≠ .gt → cmp b c ≠ .gt → cmp a c ≠ .gt

theorem PreorderOn.of_linearOrder {S : Set α} {β : Type*} [LinearOrder β] (f : α → β) :
    PreorderOn (fun a b => cmp (f a) (f b)) S where
  swap a _ b _ := (cmp_swap (f a) (f b)).symm
  trans a _ b _ c _ hab hbc := by
    rw [Ne,cmp_eq_gt_iff,not_lt] at *
    exact hab.trans hbc

variable {cmp : α → α → Ordering} {S T : Set α}

structure LawfulOn (cmp : α → α → Ordering) (S : Set α) : Prop extends PreorderOn cmp S where
  eq : ∀ a ∈ S, ∀ b ∈ S, cmp a b = .eq → a = b

theorem PreorderOn.then {cmp' : α → α → Ordering} (h : PreorderOn cmp S) (h' : PreorderOn cmp' S) :
    PreorderOn (fun a b => (cmp a b).then (cmp' a b)) S where
  swap a ha b hb := by
    rw [h.swap a ha b hb,h'.swap a ha b hb]
    cases cmp a b <;> rfl
  trans a ha b hb c hc hab hbc := by
    have hac := h.trans a ha b hb c hc
    have hcb := h.trans c hc a ha b hb
    have hba := h.trans b hb c hc a ha
    have hac' := h'.trans a ha b hb c hc
    rw [h.swap a ha c hc,h.swap b hb c hc] at hcb
    rw [h.swap a ha c hc,h.swap a ha b hb] at hba
    -- A strict step on either side leaves no tie between the ends.
    cases hab1 : cmp a b <;> cases hbc1 : cmp b c <;> cases hac1 : cmp a c <;> simp_all [Ordering.then]

section
variable (h : LawfulOn cmp S)
include h

theorem LawfulOn.mono (hT : T ⊆ S) : LawfulOn cmp T where
  swap a ha b hb := h.swap a (hT ha) b (hT hb)
  trans a ha b hb c hc := h.trans a (hT ha) b (hT hb) c (hT hc)
  eq a ha b hb := h.eq a (hT ha) b (hT hb)

theorem LawfulOn.self {a : α} (ha : a ∈ S) : cmp a a = .eq := by
  have hs := h.swap a ha a ha
  cases hc : cmp a a <;> simp_all

theorem LawfulOn.gt_iff {a b : α} (ha : a ∈ S) (hb : b ∈ S) : cmp a b = .gt ↔ cmp b a = .lt := by
  rw [h.swap a ha b hb]
  cases cmp a b <;> simp

theorem LawfulOn.lt_of_not_lt {a b : α} (ha : a ∈ S) (hb : b ∈ S) (hne : a ≠ b)
    (hab : cmp a b ≠ .lt) : cmp b a = .lt := by
  cases hc : cmp a b with
  | lt => exact absurd hc hab
  | eq => exact absurd (h.eq a ha b hb hc) hne
  | gt => exact (h.gt_iff ha hb).mp hc

theorem LawfulOn.lt_trans {a b c : α} (ha : a ∈ S) (hb : b ∈ S) (hc : c ∈ S)
    (hab : cmp a b = .lt) (hbc : cmp b c = .lt) : cmp a c = .lt := by
  have hle : cmp a c ≠ .gt := h.trans a ha b hb c hc (by simp [hab]) (by simp [hbc])
  cases hac : cmp a c with
  | lt => rfl
  | gt => exact absurd hac hle
  | eq =>
    obtain rfl := h.eq a ha c hc hac
    rw [(h.gt_iff hb ha).mpr hab] at hbc
    cases hbc

theorem LawfulOn.asymm {a b : α} (ha : a ∈ S) (hb : b ∈ S) (hab : cmp a b = .lt) : cmp b a ≠ .lt := by
  rw [(h.gt_iff hb ha).mpr hab]
  decide

end

/-! ### Sorted lists -/

/-- Each element comes strictly before all later ones. -/
def Sorted (cmp : α → α → Ordering) (l : List α) : Prop := l.Pairwise (fun a b => cmp a b = .lt)

variable {l : List α}

theorem Sorted.eq_of_perm {r : List α} (hS : LawfulOn cmp {a | a ∈ l}) (hl : Sorted cmp l) (hr : Sorted cmp r)
    (hp : l.Perm r) : l = r := by
  refine List.Perm.eq_of_pairwise (fun a b ha hb hab hba => ?_) hl hr hp
  exact absurd hba (hS.asymm ha (hp.mem_iff.mpr hb) hab)

theorem Sorted.nodup (hS : LawfulOn cmp {a | a ∈ l}) (hl : Sorted cmp l) : l.Nodup := by
  refine List.Pairwise.imp_of_mem (fun {a b} ha _ hab => ?_) hl
  rintro rfl
  rw [hS.self ha] at hab
  cases hab

/-! ### Insertion from the back -/

def insertBack (less : α → α → Bool) (x : α) : List α → List α
  | [] => [x]
  | y::ys => if less x y then y :: insertBack less x ys else x::y::ys

variable (less : α → α → Bool)

/-- Insertion sort from the front, each element moving left past greater ones. -/
def stableSort (l : List α) : List α := (l.foldl (fun sorted x => insertBack less x sorted) []).reverse

theorem insertBack_perm (x : α) (l : List α) : (insertBack less x l).Perm (x::l) := by
  induction l with
  | nil => exact List.Perm.refl _
  | cons y ys ih =>
    rw [insertBack]
    split_ifs
    · exact (ih.cons y).trans (List.Perm.swap x y ys)
    · exact List.Perm.refl _

theorem foldl_insertBack_perm (l acc : List α) :
    (l.foldl (fun sorted x => insertBack less x sorted) acc).Perm (l ++ acc) := by
  induction l generalizing acc with
  | nil => exact List.Perm.refl _
  | cons x l ih =>
    have hx : (l ++ insertBack less x acc).Perm (l ++ x::acc) := (insertBack_perm less x acc).append_left l
    exact (ih (insertBack less x acc)).trans (hx.trans perm_middle)

theorem stableSort_perm (l : List α) : (stableSort less l).Perm l := by
  have h := foldl_insertBack_perm less l []
  rw [append_nil] at h
  exact (reverse_perm _).trans h

variable {less : α → α → Bool}

@[simp] theorem mem_stableSort {a : α} : a ∈ stableSort less l ↔ a ∈ l := (stableSort_perm less l).mem_iff

@[simp] theorem length_stableSort (less : α → α → Bool) (l : List α) : (stableSort less l).length = l.length :=
  (stableSort_perm less l).length_eq

theorem insertBack_map {β : Type*} {f : α → β} {less' : β → β → Bool} {x : α}
    (h : ∀ y ∈ l, less x y = less' (f x) (f y)) : (insertBack less x l).map f = insertBack less' (f x) (l.map f) := by
  induction l with
  | nil => rfl
  | cons y ys ih =>
    obtain ⟨hy,hys⟩ := forall_mem_cons.mp h
    rw [insertBack,map_cons,insertBack,← hy]
    split_ifs
    · rw [map_cons,ih hys]
    · rfl

/-- Only comparisons with earlier elements matter, so sorting commutes with maps that keep those. -/
theorem stableSort_map {β : Type*} {f : α → β} {less' : β → β → Bool}
    (h : l.Pairwise (fun a b => less b a = less' (f b) (f a))) :
    (stableSort less l).map f = stableSort less' (l.map f) := by
  have hfold : ∀ (l acc : List α), l.Pairwise (fun a b => less b a = less' (f b) (f a)) →
      (∀ a ∈ acc, ∀ b ∈ l, less b a = less' (f b) (f a)) →
      (l.foldl (fun sorted x => insertBack less x sorted) acc).map f =
        (l.map f).foldl (fun sorted x => insertBack less' x sorted) (acc.map f) := by
    intro l
    induction l with
    | nil => exact fun _ _ _ => rfl
    | cons x l ih =>
      intro acc hl hacc
      obtain ⟨hx,hl⟩ := pairwise_cons.mp hl
      rw [foldl_cons,map_cons,foldl_cons,← insertBack_map (fun a ha => hacc a ha x mem_cons_self)]
      refine ih _ hl (fun a ha b hb => ?_)
      rcases mem_cons.mp ((insertBack_perm less x acc).mem_iff.mp ha) with rfl | ha
      · exact hx b hb
      · exact hacc a ha b (mem_cons_of_mem x hb)
  unfold stableSort
  rw [map_reverse,hfold l [] h (by simp)]
  rfl

/-- The order in which a comparison sorts. -/
def lessBy (cmp : α → α → Ordering) (a b : α) : Bool := cmp a b = .lt

theorem insertBack_ordered (hS : PreorderOn cmp S) {x : α} (hx : x ∈ S) (hl : ∀ a ∈ l, a ∈ S)
    (h : l.Pairwise (fun a b => cmp b a ≠ .gt)) :
    (insertBack (lessBy cmp) x l).Pairwise (fun a b => cmp b a ≠ .gt) := by
  induction l with
  | nil => exact pairwise_singleton _ _
  | cons y ys ih =>
    obtain ⟨hy,hys⟩ := pairwise_cons.mp h
    have hyS : y ∈ S := hl y mem_cons_self
    rw [insertBack]
    split_ifs with hxy
    · have hxy : cmp x y = .lt := by simpa [lessBy] using hxy
      refine pairwise_cons.mpr ⟨fun a ha => ?_,ih (fun a ha => hl a (mem_cons_of_mem y ha)) hys⟩
      rcases mem_cons.mp ((insertBack_perm _ x ys).mem_iff.mp ha) with rfl | ha
      · simp [hxy]
      · exact hy a ha
    have hyx : cmp y x ≠ .gt := by
      have hxy : cmp x y ≠ .lt := by simpa [lessBy] using hxy
      rw [hS.swap x hx y hyS]
      cases hc : cmp x y <;> simp_all
    refine pairwise_cons.mpr ⟨fun a ha => ?_,h⟩
    rcases mem_cons.mp ha with rfl | ha
    · exact hyx
    · exact hS.trans a (hl a (mem_cons_of_mem y ha)) y hyS x hx (hy a ha) hyx

theorem stableSort_ordered (hS : PreorderOn cmp {a | a ∈ l}) :
    (stableSort (lessBy cmp) l).Pairwise (fun a b => cmp a b ≠ .gt) := by
  suffices h : ∀ (rest acc : List α), (∀ a ∈ rest ++ acc, a ∈ l) → acc.Pairwise (fun a b => cmp b a ≠ .gt) →
      (rest.foldl (fun sorted x => insertBack (lessBy cmp) x sorted) acc).Pairwise (fun a b => cmp b a ≠ .gt) by
    exact pairwise_reverse.mpr (h l [] (by simp) List.Pairwise.nil)
  intro rest
  induction rest with
  | nil => exact fun acc _ h => h
  | cons x rest ih =>
    intro acc hm h
    have hp : (rest ++ insertBack (lessBy cmp) x acc).Perm (x::rest ++ acc) :=
      ((insertBack_perm _ x acc).append_left rest).trans perm_middle
    refine ih (insertBack (lessBy cmp) x acc) (fun a ha => hm a (hp.mem_iff.mp ha)) ?_
    exact insertBack_ordered hS (hm x (by simp)) (fun a ha => hm a (by simp [ha])) h

theorem stableSort_sorted (hS : LawfulOn cmp {a | a ∈ l}) (hl : l.Nodup) :
    Sorted cmp (stableSort (lessBy cmp) l) := by
  have hn : (stableSort (lessBy cmp) l).Nodup := (stableSort_perm _ l).nodup_iff.mpr hl
  refine (hn.and (stableSort_ordered hS.toPreorderOn)).imp_of_mem (fun {a b} ha hb h => ?_)
  have ha : a ∈ l := mem_stableSort.mp ha
  have hb : b ∈ l := mem_stableSort.mp hb
  cases hc : cmp a b with
  | lt => rfl
  | eq => exact absurd (hS.eq a ha b hb hc) h.1
  | gt => exact absurd hc h.2

theorem stableSort_eq {r : List α} (hS : LawfulOn cmp {a | a ∈ r}) (hr : Sorted cmp r) (hp : l.Perm r) :
    stableSort (lessBy cmp) l = r := by
  have hS' : LawfulOn cmp {a | a ∈ l} := hS.mono (fun a ha => hp.mem_iff.mp ha)
  have hl : l.Nodup := hp.nodup_iff.mpr (hr.nodup hS)
  have hp' : (stableSort (lessBy cmp) l).Perm r := (stableSort_perm _ l).trans hp
  exact (stableSort_sorted hS' hl).eq_of_perm (hS'.mono (fun a ha => mem_stableSort.mp ha)) hr hp'

end Comparison
