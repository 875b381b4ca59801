import Mathlib.Data.List.Lex
import Mathlib.Order.BoundedOrder.Lattice
import Mathlib.Order.Compare

/-! # Extensions in the lexicographic order

Where two strings diverge decides their order and that of all their extensions.  A
range scan over composite keys rests on this.
-/
namespace Meldbase.PrefixOrder
open List
variable {α : Type*} [LinearOrder α] {x y : List α}

theorem cons_le_cons {c d : α} : c::x ≤ d::y ↔ c < d ∨ (c = d ∧ x ≤ y) := by
  rw [← not_lt,cons_lt_cons_iff,← not_lt]
  rcases lt_trichotomy c d with h | rfl | h
  · simp [h,h.not_gt,h.ne']
  · simp
  · simp [h,h.not_gt,h.ne']

theorem append_le_append (a : List α) (h : x ≤ y) : a ++ x ≤ a ++ y := by
  rcases h.lt_or_eq with hlt | rfl
  · exact (append_left_lt hlt).le
  · exact le_rfl

theorem extension_lt {c rest z : List α} {b b' : α} (hb : b < b') (hz : c ++ b::rest <+: z) : z < c ++ [b'] := by
  obtain ⟨w,rfl⟩ := hz
  rw [append_assoc,cons_append]
  exact append_left_lt (cons_lt_cons_iff.mpr (.inl hb))

theorem replicate_bot_le [OrderBot α] {n : ℕ} {s : List α} (h : n ≤ s.length) : List.replicate n ⊥ ≤ s := by
  induction s generalizing n with
  | nil =>
    obtain rfl := Nat.le_zero.mp h
    exact le_rfl
  | cons d s ih =>
    cases n with
    | zero => exact not_lt.mp (not_lt_nil _)
    | succ n =>
      rw [replicate_succ,cons_le_cons]
      rcases (bot_le : ⊥ ≤ d).lt_or_eq with hlt | heq
      · exact .inl hlt
      · exact .inr ⟨heq,ih (Nat.le_of_succ_le_succ h)⟩

/-! ### Strings that diverge -/

/-- At the first element where the strings differ, the left one is less. -/
def Diverges (x y : List α) : Prop := ∃ c a b x' y', x = c ++ a::x' ∧ y = c ++ b::y' ∧ a < b

theorem Diverges.lt (h : Diverges x y) : x < y := by
  obtain ⟨c,a,b,x',y',rfl,rfl,hab⟩ := h
  exact append_left_lt (cons_lt_cons_iff.mpr (.inl hab))

theorem Diverges.append (h : Diverges x y) (r s : List α) : Diverges (x ++ r) (y ++ s) := by
  obtain ⟨c,a,b,x',y',rfl,rfl,hab⟩ := h
  exact ⟨c,a,b,x' ++ r,y' ++ s,by simp,by simp,hab⟩

theorem Diverges.after (h : Diverges x y) (c : List α) : Diverges (c ++ x) (c ++ y) := by
  obtain ⟨d,a,b,x',y',rfl,rfl,hab⟩ := h
  exact ⟨c ++ d,a,b,x',y',by simp,by simp,hab⟩

theorem Diverges.of_head {a b : α} (x y : List α) (h : a < b) : Diverges (a::x) (b::y) :=
  ⟨[],a,b,x,y,rfl,rfl,h⟩

theorem Diverges.not_extends {z : List α} (h : Diverges x y) (hx : x <+: z) : ¬ y <+: z := by
  obtain ⟨c,a,b,x',y',rfl,rfl,hab⟩ := h
  obtain ⟨r,rfl⟩ := hx
  rintro ⟨s,hs⟩
  rw [append_assoc,append_assoc,append_cancel_left_eq] at hs
  exact hab.ne (List.cons.inj hs).1.symm

theorem Diverges.map_strictAnti {β : Type*} [LinearOrder β] {f : α → β} (hf : StrictAnti f)
    (h : Diverges x y) : Diverges (y.map f) (x.map f) := by
  obtain ⟨c,a,b,x',y',rfl,rfl,hab⟩ := h
  exact ⟨c.map f,f b,f a,y'.map f,x'.map f,by simp,by simp,hf hab⟩

theorem prefix_or_diverges (h : x < y) : x <+: y ∨ Diverges x y := by
  induction x generalizing y with
  | nil => exact .inl nil_prefix
  | cons a x ih =>
    cases y with
    | nil => exact absurd h (not_lt_nil _)
    | cons b y =>
      rcases cons_lt_cons_iff.mp h with hab | ⟨rfl,hxy⟩
      · exact .inr (.of_head x y hab)
      rcases ih hxy with hp | hd
      · exact .inl ((prefix_append_right_inj [a]).mpr hp)
      · exact .inr (hd.after [a])

/-! ### Codes in an order -/

/-- Codes in the order `o`: equal, or diverging in its direction. -/
def EncodedAs (o : Ordering) (x y : List α) : Prop :=
  match o with
  | .lt => Diverges x y
  | .eq => x = y
  | .gt => Diverges y x

theorem EncodedAs.of_extends {o : Ordering} {z : List α} (h : EncodedAs o x y) (hx : x <+: z) (hy : y <+: z) : o = .eq := by
  cases o with
  | lt => exact absurd hy (Diverges.not_extends h hx)
  | eq => rfl
  | gt => exact absurd hx (Diverges.not_extends h hy)

theorem EncodedAs.then {o o' : Ordering} {x' y' : List α} (h : EncodedAs o x y) (h' : EncodedAs o' x' y') :
    EncodedAs (o.then o') (x ++ x') (y ++ y') := by
  cases o with
  | lt => exact Diverges.append h x' y'
  | gt => exact Diverges.append h y' x'
  | eq =>
    obtain rfl : x = y := h
    cases o' with
    | lt => exact Diverges.after h' x
    | gt => exact Diverges.after h' x
    | eq => exact congrArg (x ++ ·) h'

theorem EncodedAs.map_strictAnti {β : Type*} [LinearOrder β] {f : α → β} (hf : StrictAnti f) {o : Ordering}
    (h : EncodedAs o x y) : EncodedAs o.swap (x.map f) (y.map f) := by
  cases o with
  | lt => exact Diverges.map_strictAnti hf h
  | eq => exact congrArg (map f) h
  | gt => exact Diverges.map_strictAnti hf h

/-- A code under which smaller values diverge from larger ones keeps the order. -/
theorem encodedAs_cmp {β : Type*} [LinearOrder β] {f : β → List α} (hf : ∀ a b, a < b → Diverges (f a) (f b)) (a b : β) :
    EncodedAs (cmp a b) (f a) (f b) := by
  rcases lt_trichotomy a b with h | rfl | h
  · rw [cmp_eq_lt_iff a b |>.mpr h]
    exact hf a b h
  · rw [cmp_self_eq_eq]
    rfl
  · rw [cmp_eq_gt_iff a b |>.mpr h]
    exact hf b a h

/-! ### Strings and cuts -/

/-- The string stands below the cut, extends it, or stands above it. -/
def Placed (o : Ordering) (z b : List α) : Prop :=
  match o with
  | .lt => Diverges z b
  | .eq => b <+: z
  | .gt => Diverges b z

section
variable {o : Ordering} {z b : List α}

theorem Placed.append (h : Placed o z b) (s : List α) : Placed o (z ++ s) b := by
  cases o with
  | lt => simpa [Placed] using Diverges.append h s []
  | eq => exact List.IsPrefix.trans h (prefix_append z s)
  | gt => simpa [Placed] using Diverges.append h [] s

theorem Placed.after (h : Placed o z b) (c : List α) : Placed o (c ++ z) (c ++ b) := by
  cases o with
  | lt => exact Diverges.after h c
  | eq => exact (prefix_append_right_inj c).mpr h
  | gt => exact Diverges.after h c

theorem Placed.extend (h : Placed o z b) (ho : o ≠ .eq) (x : List α) : Placed o z (b ++ x) := by
  cases o with
  | lt => simpa [Placed] using Diverges.append h [] x
  | eq => exact absurd rfl ho
  | gt => simpa [Placed] using Diverges.append h x []

theorem EncodedAs.placed (h : EncodedAs o x y) : Placed o x y := by
  cases o with
  | lt => exact h
  | eq => exact h ▸ prefix_refl y
  | gt => exact h

/-- A cut filled up with least elements lies where the cut does. -/
theorem Placed.fill_le_iff [OrderBot α] (h : Placed o z b) {n : ℕ} {t : List α} (ht : n ≤ t.length) :
    b ++ List.replicate n ⊥ ≤ z ++ t ↔ o ≠ .lt := by
  cases o with
  | lt => exact iff_of_false (not_le.mpr (Diverges.append h _ _).lt) (fun hne => hne rfl)
  | eq =>
    obtain ⟨u,rfl⟩ := h
    rw [append_assoc]
    exact iff_of_true (append_le_append b (replicate_bot_le (by rw [length_append]; omega))) nofun
  | gt => exact iff_of_true (Diverges.append h _ _).lt.le nofun

theorem Placed.le_iff (h : Placed o z b) : b ≤ z ↔ o ≠ .lt := by
  cases o with
  | lt => exact iff_of_false (not_le.mpr (Diverges.lt h)) (fun hne => hne rfl)
  | eq =>
    obtain ⟨u,rfl⟩ := h
    have hle := append_le_append b (not_lt.mp (not_lt_nil u))
    rw [append_nil] at hle
    exact iff_of_true hle nofun
  | gt => exact iff_of_true (Diverges.lt h).le nofun

theorem placed_of_le (h : b ≤ z) : ∃ o, o ≠ .lt ∧ Placed o z b := by
  rcases h.eq_or_lt with rfl | hlt
  · exact ⟨.eq,nofun,prefix_refl b⟩
  rcases prefix_or_diverges hlt with hp | hd
  · exact ⟨.eq,nofun,hp⟩
  · exact ⟨.gt,nofun,hd⟩

end

/-! ### Prefix-free families -/

/-- No member extends another one. -/
def PrefixFree (S : Set (List α)) : Prop := ∀ a ∈ S, ∀ b ∈ S, a <+: b → a = b

theorem PrefixFree.diverges {S : Set (List α)} (h : PrefixFree S) (hx : x ∈ S) (hy : y ∈ S)
    (hxy : x < y) : Diverges x y := by
  rcases prefix_or_diverges hxy with hp | hd
  · exact absurd hxy (h x hx y hy hp ▸ lt_irrefl x)
  · exact hd

end Meldbase.PrefixOrder
