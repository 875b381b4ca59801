import Mathlib.Data.List.Nodup

/-! # Lists of keyed entries edited at an anchor

An ordered list whose entries are found by key and moved before an anchor key,
as a doubly linked list with a key index is.  Every edit is restated at a cut of
the list around the entry it touches.
-/
namespace Meldbase.KeyedList
open List
variable {K V : Type*} {k : K} {l : List (K × V)}

def keys (l : List (K × V)) : List K := l.map Prod.fst

@[simp] theorem keys_nil : keys ([] : List (K × V)) = [] := rfl

@[simp] theorem keys_cons (e : K × V) (l : List (K × V)) : keys (e::l) = e.1 :: keys l := rfl

@[simp] theorem keys_append (l r : List (K × V)) : keys (l ++ r) = keys l ++ keys r := map_append

theorem mem_keys : k ∈ keys l ↔ ∃ v, (k,v) ∈ l := by simp [keys]

variable [DecidableEq K] {a b : List (K × V)}

/-- The value of the first entry with the key. -/
def find (k : K) : List (K × V) → Option V
  | [] => none
  | e::rest => if e.1 = k then some e.2 else find k rest

/-- Detaches the entry with the key. -/
def remove (k : K) : List (K × V) → List (K × V)
  | [] => []
  | e::rest => if e.1 = k then rest else e :: remove k rest
def insertBefore (e : K × V) (anchor : Option K) : List (K × V) → List (K × V)
  | [] => [e]
  | c::rest => if some c.1 = anchor then e::c :: rest else c :: insertBefore e anchor rest

/-- The key of the entry after the one with the given key. -/
def successor (k : K) : List (K × V) → Option K
  | [] => none
  | e::rest => if e.1 = k then (keys rest).head? else successor k rest
def replace (k : K) (v : V) : List (K × V) → List (K × V)
  | [] => []
  | e::rest => if e.1 = k then (k,v) :: rest else e :: replace k v rest

/-! ### Edits and keys -/

theorem find_eq_none : find k l = none ↔ k ∉ keys l := by
  induction l with
  | nil => simp [find]
  | cons e l ih =>
    by_cases he : e.1 = k
    · simp [find,he]
    · simp [find,he,ih,Ne.symm he]

theorem successor_congr {r : List (K × V)} (h : keys l = keys r) : successor k l = successor k r := by
  induction l generalizing r with
  | nil =>
    obtain rfl : r = [] := by simpa [keys] using h.symm
    rfl
  | cons e l ih =>
    obtain ⟨f,r,rfl,he,hl⟩ := map_eq_cons_iff.mp h.symm
    rw [successor,successor,he,ih hl.symm,show keys l = keys r from hl.symm]

theorem keys_remove_congr {r : List (K × V)} (h : keys l = keys r) :
    keys (remove k l) = keys (remove k r) := by
  induction l generalizing r with
  | nil =>
    obtain rfl : r = [] := by simpa [keys] using h.symm
    rfl
  | cons e l ih =>
    obtain ⟨f,r,rfl,he,hl⟩ := map_eq_cons_iff.mp h.symm
    have hlr : keys l = keys r := hl.symm
    by_cases hk : e.1 = k
    · simp [remove,he,hk,hlr]
    · simp [remove,he,hk,ih hlr]

theorem keys_insertBefore_congr {v w : V} {anchor : Option K} {r : List (K × V)} (h : keys l = keys r) :
    keys (insertBefore (k,v) anchor l) = keys (insertBefore (k,w) anchor r) := by
  induction l generalizing r with
  | nil =>
    obtain rfl : r = [] := by simpa [keys] using h.symm
    rfl
  | cons e l ih =>
    obtain ⟨f,r,rfl,he,hl⟩ := map_eq_cons_iff.mp h.symm
    have hlr : keys l = keys r := hl.symm
    by_cases ha : some e.1 = anchor
    · simp [insertBefore,he,ha,hlr]
    · simp [insertBefore,he,ha,ih hlr]

/-! ### Edits at a cut -/

theorem exists_cut (h : k ∈ keys l) : ∃ a v b, l = a ++ (k,v) :: b ∧ k ∉ keys a := by
  induction l with
  | nil => simp at h
  | cons e l ih =>
    by_cases he : e.1 = k
    · exact ⟨[],e.2,l,by simp [← he],by simp⟩
    · obtain ⟨a,v,b,rfl,ha⟩ := ih (by simpa [Ne.symm he] using h)
      exact ⟨e::a,v,b,rfl,by simp [ha,Ne.symm he]⟩

theorem find_cut {v : V} (ha : k ∉ keys a) : find k (a ++ (k,v) :: b) = some v := by
  induction a with
  | nil => simp [find]
  | cons e a ih =>
    obtain ⟨hk,ha⟩ := not_or.mp (by simpa using ha)
    simpa [find,Ne.symm hk] using ih ha

theorem find_of_mem {v : V} (hl : (keys l).Nodup) (h : (k,v) ∈ l) : find k l = some v := by
  obtain ⟨a,b,rfl⟩ := append_of_mem h
  rw [keys_append] at hl
  exact find_cut fun hk => disjoint_of_nodup_append hl hk (by simp)

theorem mem_of_find {v : V} (h : find k l = some v) : (k,v) ∈ l := by
  have hmem : k ∈ keys l := by
    by_contra hnone
    rw [find_eq_none.mpr hnone] at h
    cases h
  obtain ⟨a,w,b,rfl,ha⟩ := exists_cut hmem
  rw [find_cut ha] at h
  cases h
  simp

theorem remove_cut {v : V} (ha : k ∉ keys a) : remove k (a ++ (k,v) :: b) = a ++ b := by
  induction a with
  | nil => simp [remove]
  | cons e a ih =>
    obtain ⟨hk,ha⟩ := not_or.mp (by simpa using ha)
    simpa [remove,Ne.symm hk] using ih ha

theorem successor_cut {v : V} (ha : k ∉ keys a) : successor k (a ++ (k,v) :: b) = (keys b).head? := by
  induction a with
  | nil => simp [successor]
  | cons e a ih =>
    obtain ⟨hk,ha⟩ := not_or.mp (by simpa using ha)
    simpa [successor,Ne.symm hk] using ih ha

theorem insertBefore_cut {e : K × V} (ha : ∀ k, (keys b).head? = some k → k ∉ keys a) :
    insertBefore e (keys b).head? (a ++ b) = a ++ e::b := by
  induction a with
  | nil => cases b <;> simp [insertBefore]
  | cons c a ih =>
    have hc : ¬ some c.1 = (keys b).head? := fun h => ha c.1 h.symm (by simp)
    rw [cons_append,insertBefore,if_neg hc,ih fun k hk hka => ha k hk (mem_cons_of_mem _ hka)]
    rfl

theorem replace_cut {v w : V} (ha : k ∉ keys a) : replace k w (a ++ (k,v) :: b) = a ++ (k,w) :: b := by
  induction a with
  | nil => simp [replace]
  | cons e a ih =>
    obtain ⟨hk,ha⟩ := not_or.mp (by simpa using ha)
    simpa [replace,Ne.symm hk] using ih ha

/-! ### Lengths -/

theorem length_remove (k : K) (l : List (K × V)) : (remove k l).length ≤ l.length ∧ l.length ≤ (remove k l).length+1 := by
  induction l with
  | nil => simp [remove]
  | cons e l ih =>
    rw [remove]
    split_ifs
    · simp
    · simpa using ih

theorem length_insertBefore (e : K × V) (anchor : Option K) (l : List (K × V)) :
    (insertBefore e anchor l).length = l.length+1 := by
  induction l with
  | nil => rfl
  | cons c l ih =>
    rw [insertBefore]
    split_ifs <;> simp [ih]

theorem length_replace (k : K) (v : V) (l : List (K × V)) : (replace k v l).length = l.length := by
  induction l with
  | nil => rfl
  | cons e l ih =>
    rw [replace]
    split_ifs <;> simp [ih]

end Meldbase.KeyedList
