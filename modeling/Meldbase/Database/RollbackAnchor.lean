import Meldbase.Logical.Records

/-! # Rollback anchors

An anchor names a database and the least commit sequence and generation that may be
opened.  The two coordinates grow independently, so anchors of one database are only
partially ordered.
-/
namespace Meldbase.Database
open Logical (Identifier)

structure RollbackAnchor where
  databaseID : Identifier
  (minimumCommitSequence minimumGeneration : ℕ)
  deriving DecidableEq

def validRollbackAnchor (a : RollbackAnchor) : Bool := !a.databaseID.isZero && 0 < a.minimumGeneration
def anchorBeforeOrEqual (left right : RollbackAnchor) : Bool :=
  left.databaseID = right.databaseID && left.minimumCommitSequence ≤ right.minimumCommitSequence &&
    left.minimumGeneration ≤ right.minimumGeneration

theorem anchorBeforeOrEqual_iff : anchorBeforeOrEqual left right = true ↔
    left.databaseID = right.databaseID ∧ left.minimumCommitSequence ≤ right.minimumCommitSequence ∧
      left.minimumGeneration ≤ right.minimumGeneration := by
  simp [anchorBeforeOrEqual,and_assoc]

theorem anchorBeforeOrEqual_refl (a : RollbackAnchor) : anchorBeforeOrEqual a a = true :=
  anchorBeforeOrEqual_iff.mpr ⟨rfl,le_rfl,le_rfl⟩

theorem anchorBeforeOrEqual_trans (hab : anchorBeforeOrEqual a b = true)
    (hbc : anchorBeforeOrEqual b c = true) : anchorBeforeOrEqual a c = true := by
  obtain ⟨hid,hsequence,hgeneration⟩ := anchorBeforeOrEqual_iff.mp hab
  obtain ⟨hid',hsequence',hgeneration'⟩ := anchorBeforeOrEqual_iff.mp hbc
  exact anchorBeforeOrEqual_iff.mpr ⟨hid.trans hid',hsequence.trans hsequence',hgeneration.trans hgeneration'⟩

/-! ### The file store -/

inductive AnchorError where
  | invalid
  | identityChange
  | sequenceRegression
  | generationRegression
  deriving DecidableEq

/-- `fileRollbackAnchorStore.Advance` on what the file holds. -/
def advanceAnchor (current : Option RollbackAnchor) (anchor : RollbackAnchor) : Except AnchorError RollbackAnchor :=
  if !validRollbackAnchor anchor then .error .invalid
  else match current with
    | none => .ok anchor
    | some c =>
      if c.databaseID ≠ anchor.databaseID then .error .identityChange
      else if anchor.minimumCommitSequence < c.minimumCommitSequence then .error .sequenceRegression
      else if anchor.minimumGeneration < c.minimumGeneration then .error .generationRegression
      else .ok anchor

theorem advanceAnchor_ok (h : advanceAnchor current anchor = .ok stored) :
    stored = anchor ∧ validRollbackAnchor anchor = true ∧ ∀ c ∈ current, anchorBeforeOrEqual c anchor = true := by
  unfold advanceAnchor at h
  split at h
  · cases h
  next hvalid =>
  rw [Bool.not_eq_true,Bool.not_eq_false'] at hvalid
  cases current with
  | none =>
    cases h
    exact ⟨rfl,hvalid,nofun⟩
  | some c =>
    dsimp only at h
    split_ifs at h with hid hsequence hgeneration
    cases h
    refine ⟨rfl,hvalid,fun c' hc' => ?_⟩
    cases hc'
    exact anchorBeforeOrEqual_iff.mpr ⟨not_not.mp hid,not_lt.mp hsequence,not_lt.mp hgeneration⟩

end Meldbase.Database
