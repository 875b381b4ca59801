import Mathlib.Data.List.TakeWhile
import Meldbase.Logical.IndexBuilds

/-! # What a secondary index holds

An index assigns each document at most one key; its tree stores one entry
`key ‖ position ‖ id` per assigned key.
-/
namespace Meldbase.Logical
open List Function
open FixedWidth PrefixOrder

/-! ### Composite keys -/

structure EntryOk (key : Bytes) (position : ℕ) (id : Identifier) : Prop where
  key_ne : key ≠ []
  key_le : key.length ≤ maxSecondaryScalarKeyBytes
  position_pos : 0 < position
  position_le : position ≤ maxUint64
  id_ne : id.isZero = false

theorem length_compositeKey (key : Bytes) (position : ℕ) (id : Identifier) :
    (compositeKey key position id).length = key.length+24 := by
  simp [compositeKey,id.property]

theorem position_lt (h : position ≤ maxUint64) : position < 256 ^ 8 := by
  unfold maxUint64 at h
  omega

theorem compositeKey_inj {id id' : Identifier} (hp : p ≤ maxUint64) (hp' : p' ≤ maxUint64)
    (h : compositeKey k p id = compositeKey k' p' id') : k = k' ∧ p = p' ∧ id = id' := by
  unfold compositeKey at h
  obtain ⟨hk,hrest⟩ := append_inj' h (by simp [id.property,id'.property])
  obtain ⟨hpos,hid⟩ := append_inj hrest (by simp)
  exact ⟨hk,(bigEndian_inj (position_lt hp) (position_lt hp')).mp hpos,Subtype.ext hid⟩

theorem secondaryKeyParts_eq {id : Identifier} (h : EntryOk key position id) :
    secondaryKeyParts (compositeKey key position id) = .ok (key,position,id) := by
  have hlen := length_compositeKey key position id
  have hkey := length_pos_of_ne_nil h.key_ne
  have hle := h.key_le
  unfold maxSecondaryScalarKeyBytes at hle
  have hoffset : (compositeKey key position id).length - 24 = key.length := by omega
  have htail : (compositeKey key position id).drop key.length = bigEndian 8 position ++ id.val := by
    simp [compositeKey]
  have hposition : ofBigEndian ((bigEndian 8 position ++ id.val).take 8) = position := by
    rw [take_append_of_le_length (by simp),take_of_length_le (by simp),
      ofBigEndian_bigEndian (position_lt h.position_le)]
  have hid : (compositeKey key position id).drop (key.length+8) = id.val := by
    rw [← drop_drop,htail,drop_append_of_le_length (by simp),drop_of_length_le (by simp),nil_append]
  have hpos := h.position_pos
  unfold secondaryKeyParts
  rw [dif_neg (by omega)]
  simp only [hoffset,htail,hposition]
  rw [if_neg]
  · have hkeyPart : (compositeKey key position id).take key.length = key := by simp [compositeKey]
    simp only [hkeyPart,Except.ok.injEq,Prod.mk.injEq,true_and]
    exact Subtype.ext hid
  have hzero : Identifier.isZero ⟨(compositeKey key position id).drop (key.length+8),by
      rw [hid]; exact id.property⟩ = false := by
    rw [← h.id_ne]
    exact congrArg allZero hid
  simp only [Bool.or_eq_true,decide_eq_true_eq,not_or,Bool.not_eq_true]
  exact ⟨by omega,hzero⟩

/-! ### Trees and assignments -/

structure Holds (keys : Identifier → Bytes) (positions : Identifier → ℕ) (tree : SecondaryTree) : Prop where
  find : ∀ e v, tree.find e = some v ↔ v = [0] ∧ ∃ id, keys id ≠ [] ∧ e = compositeKey (keys id) (positions id) id
  valid : ∀ id, keys id ≠ [] → EntryOk (keys id) (positions id) id

theorem holds_empty (positions : Identifier → ℕ) : Holds (fun _ => []) positions ∅ := by
  constructor
  · intro e v
    simp
  · intro id h
    exact absurd rfl h

theorem Holds.congr {keys keys' : Identifier → Bytes} {positions positions' : Identifier → ℕ}
    (h : Holds keys positions tree) (hkeys : ∀ id, keys' id = keys id)
    (hpositions : ∀ id, keys id ≠ [] → positions' id = positions id) : Holds keys' positions' tree := by
  have heq : keys' = keys := funext hkeys
  subst heq
  constructor
  · intro e v
    rw [h.find]
    constructor
    · rintro ⟨hv,id,hid,he⟩
      exact ⟨hv,id,hid,by rw [hpositions id hid]; exact he⟩
    · rintro ⟨hv,id,hid,he⟩
      exact ⟨hv,id,hid,by rw [← hpositions id hid]; exact he⟩
  intro id hid
  rw [hpositions id hid]
  exact h.valid id hid

theorem Holds.insert {keys : Identifier → Bytes} {positions : Identifier → ℕ}
    (h : Holds keys positions tree) {id : Identifier} (hfree : keys id = []) (hok : EntryOk k p id) :
    Holds (update keys id k) (update positions id p) (tree.insert (compositeKey k p id) [0]) := by
  constructor
  · intro e v
    rw [SortedMap.find_insert]
    split_ifs with he
    · subst he
      constructor
      · intro hv
        cases hv
        exact ⟨rfl,id,by rw [update_self]; exact hok.key_ne,by rw [update_self,update_self]⟩
      · rintro ⟨rfl,-⟩
        rfl
    rw [h.find]
    refine and_congr_right (fun _ => exists_congr (fun id' => ?_))
    by_cases hne : id' = id
    · subst hne
      rw [update_self,update_self]
      exact ⟨fun hx => absurd hfree hx.1,fun hx => absurd hx.2 he⟩
    · rw [update_of_ne hne,update_of_ne hne]
  intro id' hid'
  by_cases hne : id' = id
  · subst hne
    rw [update_self,update_self]
    exact hok
  rw [update_of_ne hne] at hid' ⊢
  rw [update_of_ne hne]
  exact h.valid id' hid'

/-! ### Ends of prefixes -/

/-- The trailing 255 bytes are cut off and the byte before them is raised. -/
theorem lexicographicPrefixEnd_eq_some (h : lexicographicPrefixEnd scalar = some e) :
    ∃ front c tail, scalar = front ++ c::tail ∧ (∀ x ∈ tail, x = 255) ∧ c < c+1 ∧ e = front ++ [c+1] := by
  unfold lexicographicPrefixEnd at h
  have hsplit := takeWhile_append_dropWhile (p := (· = 255)) (l := scalar.reverse)
  cases hdrop : scalar.reverse.dropWhile (· = 255) with
  | nil => simp [hdrop] at h
  | cons c rest =>
    rw [hdrop] at h hsplit
    cases h
    have hc : ¬ (c = 255) := by
      have := head_dropWhile_not (fun x : Byte => decide (x = 255)) (l := scalar.reverse) (by rw [hdrop]; simp)
      simpa [hdrop] using this
    refine ⟨rest.reverse,c,(scalar.reverse.takeWhile (· = 255)).reverse,?_,?_,?_,reverse_cons⟩
    · rw [← reverse_inj,reverse_append,reverse_cons,reverse_reverse,reverse_reverse,
        append_assoc,singleton_append]
      exact hsplit.symm
    · intro x hx
      simpa using mem_takeWhile_imp (mem_reverse.mp hx)
    rw [Fin.lt_def,Fin.val_add]
    have := c.isLt
    have hne : c.val ≠ 255 := fun hx => hc (Fin.ext hx)
    rw [Nat.mod_eq_of_lt (by simp; omega)]
    simp

theorem lt_lexicographicPrefixEnd (h : lexicographicPrefixEnd scalar = some b)
    (hz : scalar <+: z) : z < b := by
  obtain ⟨front,c,tail,rfl,-,hlt,rfl⟩ := lexicographicPrefixEnd_eq_some h
  exact extension_lt hlt hz

end Meldbase.Logical
