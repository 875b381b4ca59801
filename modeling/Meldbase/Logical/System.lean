import Meldbase.Logical.Records

/-! # Private system records

Compare-and-set changes of the private system tree that hangs off the catalog.
-/
namespace Meldbase.Logical

def maxSystemKeyBytes : ℕ := 256
def maxSystemValueBytes : ℕ := 16*1024*1024+64*1024

structure SystemRecordMutation where
  key : Bytes
  expectedExists : Bool
  expectedHash : Digest
  newValue : Bytes
  (delete unconditional : Bool)

def validSystemRecordMutation (m : SystemRecordMutation) : Bool :=
  0 < m.key.length && m.key.length ≤ maxSystemKeyBytes &&
    (!m.unconditional || (!m.expectedExists && m.expectedHash.isNone)) &&
    (m.expectedExists || m.expectedHash.isNone) &&
    (!m.unconditional || !m.delete) &&
    (!m.delete || m.newValue.length = 0) &&
    (m.delete || (0 < m.newValue.length && m.newValue.length ≤ maxSystemValueBytes))

/-- A compare-and-set either finds another value or stages the new catalog. -/
inductive SystemOutcome where
  | mismatch (current : Option Bytes)
  | applied (catalog : Catalog)

def systemMatches [Sha256] (m : SystemRecordMutation) : Option Bytes → Bool
  | none => m.unconditional || !m.expectedExists
  | some current => m.unconditional || (m.expectedExists && sha256 current = m.expectedHash)
def systemTree (catalog : Catalog) : SortedMap Bytes Bytes :=
  openTree (catalog.system.bind SystemDirectory.root)
def applySystemRecordMutation [Sha256] (catalog : Catalog) (m : SystemRecordMutation) : Except StorageError SystemOutcome :=
  if !validSystemRecordMutation m then .error .corrupt
  else
    let tree := systemTree catalog
    let count := (catalog.system.map SystemDirectory.count).getD 0
    if tree.size ≠ count then .error .corrupt
    else
      let current := tree.find m.key
      if !systemMatches m current then .ok (.mismatch current)
      else if m.delete then
        if current.isNone || count = 0 then .error .corrupt
        else
          let tree := tree.erase m.key
          if tree.size ≠ count - 1 then .error .corrupt
          else .ok (.applied { catalog with system := some ⟨some tree,count - 1⟩ })
      else if current.isNone && count = maxUint64 then .error .corrupt
      else
        let tree := tree.insert m.key m.newValue
        let count := if current.isNone then count+1 else count
        if tree.size ≠ count then .error .corrupt
        else .ok (.applied { catalog with system := some ⟨some tree,count⟩ })

/-- `getSystemRecordUnlocked`. -/
def getSystemRecord (catalogRoot : Option Catalog) (key : Bytes) : Option Bytes :=
  (systemTree (openCatalog catalogRoot)).find key

@[simp] theorem getSystemRecord_mk (collections : SortedMap Bytes CollectionMeta) (t : SortedMap Bytes Bytes)
    (n : ℕ) (key : Bytes) : getSystemRecord (some ⟨collections,some ⟨some t,n⟩⟩) key = t.find key := rfl

/-- What one applied change leaves in the system tree, and that it leaves the
collections alone. -/
theorem applySystemRecordMutation_applied [Sha256] (h : applySystemRecordMutation catalog m = .ok (.applied catalog')) :
    catalog'.collections = catalog.collections ∧
      ∀ key, getSystemRecord (some catalog') key =
        if key = m.key then (if m.delete then none else some m.newValue)
        else getSystemRecord (some catalog) key := by
  have hfind : ∀ key, getSystemRecord (some catalog) key = (systemTree catalog).find key := fun key => rfl
  unfold applySystemRecordMutation at h
  dsimp only at h
  split_ifs at h with hvalid hcount hmatch hdelete hgone hsize hfull hnew hsize hsize
  all_goals cases h
  · refine ⟨rfl,fun key => ?_⟩
    rw [getSystemRecord_mk,SortedMap.find_erase,hfind,if_pos hdelete]
  all_goals
    refine ⟨rfl,fun key => ?_⟩
    rw [getSystemRecord_mk,SortedMap.find_insert,hfind,if_neg hdelete]

theorem applySystemRecordMutation_expected [Sha256] [CollisionFree] (expected : Option Bytes)
    (h : applySystemRecordMutation catalog ⟨key,expected.isSome,expected.bind sha256,value,delete,false⟩ =
      .ok (.applied catalog')) :
    getSystemRecord (some catalog) key = expected := by
  unfold applySystemRecordMutation at h
  dsimp only at h
  have hfound : systemMatches ⟨key,expected.isSome,expected.bind sha256,value,delete,false⟩
      ((systemTree catalog).find key) = true := by
    split_ifs at h with hvalid hcount hmatch <;> simp_all
  change (systemTree catalog).find key = expected
  cases hfind : (systemTree catalog).find key with
  | none =>
    rw [hfind,systemMatches,Bool.false_or,Bool.not_eq_true',Option.isSome_eq_false_iff,Option.isNone_iff_eq_none] at hfound
    exact hfound.symm
  | some current =>
    rw [hfind,systemMatches,Bool.false_or,Bool.and_eq_true,decide_eq_true_eq] at hfound
    obtain ⟨old,rfl⟩ := Option.isSome_iff_exists.mp hfound.1
    rw [CollisionFree.injective hfound.2]

end Meldbase.Logical
