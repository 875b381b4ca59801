import Mathlib.Algebra.GroupWithZero.Nat
import Mathlib.Data.List.Sort

/-! # Finite maps as strictly sorted association lists

A finite map over a linear order is a list of entries whose keys strictly
increase.  Insertion and erasure are stated through the part below and the part
above the key, so that they commute with concatenation of key-separated pieces;
this is what a search tree needs from its specification.
-/
namespace Meldbase.Entries
open List Option Prod
variable {K V : Type*} [LinearOrder K]
variable (es : List (K × V))

def Ordered : Prop := es.Pairwise (fun a b => a.1 < b.1)

/-- The value stored at a key. -/
def find (es : List (K × V)) (k : K) : Option V := (es.find? (fun e => e.1 = k)).map snd

variable (k : K)

def below (es : List (K × V)) : List (K × V) := es.filter (fun e => e.1 < k)
def above (es : List (K × V)) : List (K × V) := es.filter (fun e => k < e.1)
def insert (v : V) : List (K × V) := below k es ++ (k,v) :: above k es

/-- Remove a key. -/
def erase : List (K × V) := es.filter (fun e => e.1 ≠ k)

/-- Whether a key lies in the half-open range; an absent bound is open. -/
def inRange (lo hi : Option K) (k : K) : Bool := lo.all (· ≤ k) && hi.all (k < ·)
def range (lo hi : Option K) : List (K × V) := es.filter (fun e => inRange lo hi e.1)

@[simp] theorem ordered_nil : Ordered ([] : List (K × V)) := List.Pairwise.nil

variable {e : K × V} {es l r : List (K × V)} {k : K}

theorem ordered_cons : Ordered (e::es) ↔ (∀ x ∈ es, e.1 < x.1) ∧ Ordered es := pairwise_cons

theorem ordered_append :
    Ordered (l ++ r) ↔ Ordered l ∧ Ordered r ∧ ∀ a ∈ l, ∀ b ∈ r, a.1 < b.1 := pairwise_append

theorem Ordered.sublist (hr : Ordered r) (h : l.Sublist r) : Ordered l := List.Pairwise.sublist h hr

theorem Ordered.keys_nodup (h : Ordered es) : (es.map fst).Nodup := by
  rw [List.Nodup,pairwise_map]
  exact h.imp (fun hab => hab.ne)

/-! ### Splitting an ordered list at a key -/

theorem mem_below : e ∈ below k es ↔ e ∈ es ∧ e.1 < k := by
  simp [below]

theorem mem_above : e ∈ above k es ↔ e ∈ es ∧ k < e.1 := by
  simp [above]

theorem below_eq_self (h : ∀ e ∈ es, e.1 < k) : below k es = es :=
  filter_eq_self.mpr (fun e he => by simpa using h e he)

theorem above_eq_self (h : ∀ e ∈ es, k < e.1) : above k es = es :=
  filter_eq_self.mpr (fun e he => by simpa using h e he)

theorem below_eq_nil (h : ∀ e ∈ es, k ≤ e.1) : below k es = [] :=
  filter_eq_nil_iff.mpr (fun e he => by simpa using h e he)

theorem above_eq_nil (h : ∀ e ∈ es, e.1 ≤ k) : above k es = [] :=
  filter_eq_nil_iff.mpr (fun e he => by simpa using h e he)

theorem below_append (k : K) (l r : List (K × V)) : below k (l ++ r) = below k l ++ below k r := by
  simp [below]

theorem above_append (k : K) (l r : List (K × V)) : above k (l ++ r) = above k l ++ above k r := by
  simp [above]

theorem eq_below_append_above (ho : Ordered es) (hk : ∀ e ∈ es, e.1 ≠ k) : es = below k es ++ above k es := by
  induction es with
  | nil => rfl
  | cons e es ih =>
    obtain ⟨he,ho⟩ := ordered_cons.mp ho
    have ih := ih ho (fun x hx => hk x (mem_cons_of_mem _ hx))
    rcases lt_or_gt_of_ne (hk e mem_cons_self) with hlt | hgt
    · simpa [below,above,hlt,hlt.not_gt] using ih
    have hb : below k es = [] := below_eq_nil (fun x hx => (hgt.trans (he x hx)).le)
    rw [hb,nil_append] at ih
    have hbc : below k (e::es) = [] :=
      below_eq_nil (forall_mem_cons.mpr ⟨hgt.le,fun x hx => (hgt.trans (he x hx)).le⟩)
    rw [hbc,nil_append]
    simpa [above,hgt] using ih

/-! ### Lookup -/

theorem find_eq_some (ho : Ordered es) {v : V} : find es k = some v ↔ (k,v) ∈ es := by
  induction es with
  | nil => simp [find]
  | cons e es ih =>
    obtain ⟨he,ho⟩ := ordered_cons.mp ho
    have ih := ih ho
    by_cases hk : e.1 = k
    · subst hk
      simp only [find,List.find?_cons,decide_true,map_some,Option.some.injEq,mem_cons]
      constructor
      · rintro rfl; exact .inl rfl
      rintro (h | h)
      · exact (congrArg snd h).symm
      · exact absurd (he _ h) (lt_irrefl _)
    · have hne : (k,v) ≠ e := fun h => hk (congrArg fst h).symm
      simpa [find,hk,hne] using ih

theorem find_eq_none : find es k = none ↔ ∀ e ∈ es, e.1 ≠ k := by
  simp [find]

theorem find_append (l r : List (K × V)) (k : K) : find (l ++ r) k = (find l k).or (find r k) := by
  simp only [find,List.find?_append]
  cases l.find? (fun e => e.1 = k) <;> rfl

theorem find_middle {m : List (K × V)} (hl : ∀ e ∈ l, e.1 < k) (hr : ∀ e ∈ r, k < e.1) :
    find (l ++ m ++ r) k = find m k := by
  rw [find_append,find_append,find_eq_none.mpr (fun e he => (hl e he).ne),
    find_eq_none.mpr (fun e he => (hr e he).ne'),none_or,or_none]

/-! ### Insertion -/

theorem mem_insert {v : V} : e ∈ insert es k v ↔ e = (k,v) ∨ (e ∈ es ∧ e.1 ≠ k) := by
  simp only [insert,mem_append,mem_cons,mem_below,mem_above,lt_or_lt_iff_ne.symm]
  tauto

theorem insert_ne_nil (es : List (K × V)) (k : K) (v : V) : insert es k v ≠ [] := by
  simp [insert]

theorem insert_ordered (ho : Ordered es) (k : K) (v : V) : Ordered (insert es k v) := by
  refine ordered_append.mpr ⟨ho.sublist filter_sublist,
    ordered_cons.mpr ⟨fun x hx => (mem_above.mp hx).2,ho.sublist filter_sublist⟩,?_⟩
  intro a ha b hb
  have hak := (mem_below.mp ha).2
  rcases mem_cons.mp hb with rfl | hb
  · exact hak
  · exact hak.trans (mem_above.mp hb).2

theorem insert_middle {m : List (K × V)} (v : V) (hl : ∀ e ∈ l, e.1 < k) (hr : ∀ e ∈ r, k < e.1) :
    insert (l ++ m ++ r) k v = l ++ insert m k v ++ r := by
  simp only [insert,below_append,above_append,below_eq_self hl,above_eq_self hr,
    below_eq_nil (fun e he => (hr e he).le),above_eq_nil (fun e he => (hl e he).le),
    append_nil,nil_append,append_assoc,cons_append]

theorem find_insert (ho : Ordered es) (k k' : K) (v : V) :
    find (insert es k v) k' = if k' = k then some v else find es k' := by
  ext w
  rw [find_eq_some (insert_ordered ho k v),mem_insert]
  split
  · next h => subst h; simp [eq_comm]
  · next h => rw [find_eq_some ho]; simp [h]

/-! ### Erasure -/

theorem mem_erase : e ∈ erase es k ↔ e ∈ es ∧ e.1 ≠ k := by
  simp [erase]

theorem erase_ordered (ho : Ordered es) (k : K) : Ordered (erase es k) := ho.sublist filter_sublist

theorem erase_eq_self (hk : ∀ e ∈ es, e.1 ≠ k) : erase es k = es :=
  filter_eq_self.mpr (fun e he => by simpa using hk e he)

theorem erase_append (l r : List (K × V)) (k : K) : erase (l ++ r) k = erase l k ++ erase r k := by
  simp [erase]

theorem erase_middle {m : List (K × V)} (hl : ∀ e ∈ l, e.1 < k) (hr : ∀ e ∈ r, k < e.1) :
    erase (l ++ m ++ r) k = l ++ erase m k ++ r := by
  rw [erase_append,erase_append,erase_eq_self (fun e he => (hl e he).ne),
    erase_eq_self (fun e he => (hr e he).ne')]

theorem erase_split {v : V} (ho : Ordered (l ++ (k,v) :: r)) : erase (l ++ (k,v) :: r) k = l ++ r := by
  obtain ⟨-,hr,hlr⟩ := ordered_append.mp ho
  have hl : ∀ e ∈ l, e.1 ≠ k := fun e he => (hlr e he (k,v) mem_cons_self).ne
  have hr : ∀ e ∈ r, e.1 ≠ k := fun e he => ((ordered_cons.mp hr).1 e he).ne'
  rw [erase_append,erase_eq_self hl]
  simpa [erase] using (erase_eq_self hr)

theorem length_erase_of_mem {v : V} (ho : Ordered es) (hk : (k,v) ∈ es) :
    (erase es k).length+1 = es.length := by
  obtain ⟨l,r,rfl⟩ := append_of_mem hk
  rw [erase_split ho]
  simp only [length_append,length_cons]
  omega

theorem find_erase (ho : Ordered es) (k k' : K) :
    find (erase es k) k' = if k' = k then none else find es k' := by
  split
  · next h => subst h; exact find_eq_none.mpr (fun e he => (mem_erase.mp he).2)
  · next h => ext w; rw [find_eq_some (erase_ordered ho k),mem_erase,find_eq_some ho]; simp [h]

/-! ### Ranges and extensionality -/

theorem inRange_iff {lo hi : Option K} :
    inRange lo hi k = true ↔ (∀ a, lo = some a → a ≤ k) ∧ ∀ b, hi = some b → k < b := by
  unfold inRange
  cases lo <;> cases hi <;> simp

theorem mem_range {lo hi : Option K} : e ∈ range es lo hi ↔ e ∈ es ∧ inRange lo hi e.1 = true := mem_filter

theorem range_append (l r : List (K × V)) (lo hi : Option K) :
    range (l ++ r) lo hi = range l lo hi ++ range r lo hi := by
  simp [range]

theorem range_eq_nil {lo hi : Option K} (h : ∀ e ∈ es, inRange lo hi e.1 = false) : range es lo hi = [] :=
  filter_eq_nil_iff.mpr (fun e he => by simp [h e he])

theorem Ordered.ext (hl : Ordered l) (hr : Ordered r) (h : ∀ e, e ∈ l ↔ e ∈ r) : l = r := by
  have hp : l.Perm r := (perm_ext_iff_of_nodup (hl.keys_nodup.of_map _) (hr.keys_nodup.of_map _)).mpr h
  exact hp.eq_of_pairwise (fun a b _ _ hab hba => absurd hab hba.not_gt) hl hr

end Meldbase.Entries

namespace Meldbase
open List

structure SortedMap (K V : Type*) [LinearOrder K] where
  entries : List (K × V)
  ordered : Entries.Ordered entries

namespace SortedMap
variable {K V : Type*} [LinearOrder K] {m : SortedMap K V}

instance : EmptyCollection (SortedMap K V) := ⟨⟨[],Entries.ordered_nil⟩⟩

def find (m : SortedMap K V) (k : K) : Option V := Entries.find m.entries k
def insert (m : SortedMap K V) (k : K) (v : V) : SortedMap K V :=
  ⟨Entries.insert m.entries k v,Entries.insert_ordered m.ordered k v⟩
def erase (m : SortedMap K V) (k : K) : SortedMap K V :=
  ⟨Entries.erase m.entries k,Entries.erase_ordered m.ordered k⟩
def size (m : SortedMap K V) : ℕ := m.entries.length

/-- Values replaced key by key. -/
def map {W : Type*} (m : SortedMap K V) (f : K → V → W) : SortedMap K W where
  entries := m.entries.map (fun e => (e.1,f e.1 e.2))
  ordered := by
    have h := m.ordered
    unfold Entries.Ordered at h ⊢
    rwa [pairwise_map]

theorem entries_injective : Function.Injective (entries : SortedMap K V → List (K × V)) := by
  rintro ⟨l,hl⟩ ⟨r,hr⟩ h
  cases h
  rfl

instance [DecidableEq V] : DecidableEq (SortedMap K V) := entries_injective.decidableEq

theorem size_eq_zero : m.size = 0 ↔ m = ∅ := by
  rw [size,length_eq_zero_iff]
  exact ⟨fun h => entries_injective h,fun h => h ▸ rfl⟩

@[simp] theorem find_empty (k : K) : (∅ : SortedMap K V).find k = none := rfl

theorem mem_entries {k : K} {v : V} : (k,v) ∈ m.entries ↔ m.find k = some v :=
  (Entries.find_eq_some m.ordered).symm

theorem find_insert (m : SortedMap K V) (k k' : K) (v : V) [Decidable (k' = k)] :
    (m.insert k v).find k' = if k' = k then some v else m.find k' := by
  unfold find insert
  rw [Entries.find_insert m.ordered k k' v]
  congr

theorem find_erase (m : SortedMap K V) (k k' : K) [Decidable (k' = k)] :
    (m.erase k).find k' = if k' = k then none else m.find k' := by
  unfold find erase
  rw [Entries.find_erase m.ordered k k']
  congr

theorem find_erase_eq_some {m : SortedMap K V} {k k' : K} {v : V} :
    (m.erase k).find k' = some v ↔ k' ≠ k ∧ m.find k' = some v := by
  classical
  rw [find_erase]
  split_ifs with h
  · simp [h]
  · simp [h]

theorem find_map {W : Type*} (m : SortedMap K V) (f : K → V → W) (k : K) :
    (m.map f).find k = (m.find k).map (f k) := by
  ext w
  rw [← mem_entries,Option.map_eq_some_iff]
  constructor
  · intro h
    obtain ⟨⟨k',v⟩,he,heq⟩ := mem_map.mp h
    cases heq
    exact ⟨v,mem_entries.mp he,rfl⟩
  · rintro ⟨v,hv,rfl⟩
    exact mem_map.mpr ⟨(k,v),mem_entries.mpr hv,rfl⟩

variable (w : V → ℕ)

def weight (m : SortedMap K V) : ℕ := (m.entries.map (fun e => w e.2)).sum

theorem weight_insert_new {k : K} (v : V) (h : m.find k = none) :
    (m.insert k v).weight w = m.weight w + w v := by
  have hsplit := congrArg (fun es => (es.map (fun e => w e.2)).sum)
    (Entries.eq_below_append_above m.ordered (Entries.find_eq_none.mp h))
  unfold weight insert Entries.insert
  simp only [map_append,sum_append,map_cons,sum_cons] at hsplit ⊢
  omega

theorem weight_erase {k : K} {v : V} (h : m.find k = some v) : (m.erase k).weight w + w v = m.weight w := by
  obtain ⟨l,r,hsplit⟩ := append_of_mem (mem_entries.mpr h)
  have hordered := m.ordered
  unfold weight erase
  dsimp only
  rw [hsplit] at hordered ⊢
  rw [Entries.erase_split hordered]
  simp only [map_append,sum_append,map_cons,sum_cons]
  omega

theorem ext_find {n : SortedMap K V} (h : ∀ k, m.find k = n.find k) : m = n := by
  apply entries_injective
  refine Entries.Ordered.ext m.ordered n.ordered ?_
  rintro ⟨k,v⟩
  rw [mem_entries,mem_entries,h k]

end SortedMap
end Meldbase
