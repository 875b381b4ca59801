import Mathlib.Algebra.BigOperators.Group.List.Basic
import Mathlib.Algebra.GroupWithZero.Nat

/-! # Framing of byte strings

A record of fields of given widths is cut back into its fields, and a long string
is cut into pieces of one size and joined again.
-/
namespace Meldbase.Framing
open List
variable {α : Type*}

/-! ### Fields -/

def splitFields : List ℕ → List α → List (List α)
  | [], _ => []
  | w::ws, bytes => bytes.take w :: splitFields ws (bytes.drop w)

theorem splitFields_flatten {widths : List ℕ} {fields : List (List α)} (h : fields.map List.length = widths)
    (rest : List α) : splitFields widths (fields.flatten ++ rest) = fields := by
  subst h
  induction fields with
  | nil => rfl
  | cons field fields ih =>
    rw [map_cons,splitFields,flatten_cons,append_assoc,take_left,drop_left,ih]

theorem drop_fields {widths : List ℕ} {fields : List (List α)} (h : fields.map List.length = widths) (rest : List α) :
    (fields.flatten ++ rest).drop widths.sum = rest := by
  subst h
  rw [← length_flatten,drop_left]

/-! ### Pieces -/

/-- The first `count` pieces of `size` elements. -/
def pieces (size : ℕ) : ℕ → List α → List (List α)
  | 0, _ => []
  | count+1, bytes => bytes.take size :: pieces size count (bytes.drop size)

@[simp] theorem length_pieces (size count : ℕ) (bytes : List α) : (pieces size count bytes).length = count := by
  induction count generalizing bytes with
  | zero => rfl
  | succ count ih => rw [pieces,length_cons,ih]

theorem flatten_pieces {size count : ℕ} {bytes : List α} (h : bytes.length ≤ count*size) :
    (pieces size count bytes).flatten = bytes := by
  induction count generalizing bytes with
  | zero =>
    rw [Nat.zero_mul,Nat.le_zero] at h
    rw [length_eq_zero_iff.mp h]
    rfl
  | succ count ih =>
    have hrest : (bytes.drop size).length ≤ count*size := by
      rw [length_drop]
      rw [Nat.succ_mul] at h
      omega
    rw [pieces,flatten_cons,ih hrest,take_append_drop]

/-- With no more pieces than needed, none of them is empty. -/
theorem pieces_ne_nil {size count : ℕ} {bytes : List α} (hsize : 0 < size) (h : count*size < bytes.length+size)
    {piece : List α} (hmem : piece ∈ pieces size count bytes) : piece ≠ [] := by
  induction count generalizing bytes with
  | zero => cases hmem
  | succ count ih =>
    rw [Nat.succ_mul] at h
    have hbytes : bytes ≠ [] := by
      rintro rfl
      simp only [length_nil,Nat.zero_add] at h
      omega
    rcases mem_cons.mp hmem with rfl | hmem
    · intro hnil
      rcases take_eq_nil_iff.mp hnil with hzero | hzero
      · omega
      · exact hbytes hzero
    refine ih ?_ hmem
    rw [length_drop]
    omega

end Meldbase.Framing
