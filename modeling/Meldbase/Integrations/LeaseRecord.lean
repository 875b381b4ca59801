import Meldbase.Logical.Records

/-! # Primary lease records

A lease record names the owner that may write to a database until `notAfter`.  Times
are nanoseconds since 1970; two spellings of one instant are one time.
-/
namespace Meldbase.PrimaryLease
open Logical (Identifier maxUint64)

def zeroTime : ℤ := -62135596800 * 10 ^ 9
def maxOwnerBytes : ℕ := 48
def ownerByte (b : Byte) : Bool :=
  (97 ≤ b.val && b.val ≤ 122) || (65 ≤ b.val && b.val ≤ 90) || (48 ≤ b.val && b.val ≤ 57) || b.val = 45 || b.val = 95 ||
    b.val = 46
def validOwner (owner : Bytes) : Bool := 0 < owner.length && owner.length ≤ maxOwnerBytes && owner.all ownerByte

structure LeaseRecord where
  databaseID : Identifier
  owner : Bytes
  (epoch commitSequence : ℕ)
  notAfter : ℤ
  revoked : Bool
  deriving DecidableEq

def validLeaseRecord (record : LeaseRecord) (databaseID : Identifier) : Bool :=
  if record.databaseID ≠ databaseID || record.epoch = 0 || record.epoch = maxUint64 || record.notAfter = zeroTime then false
  else if record.revoked then record.owner = []
  else validOwner record.owner

/-- What a `LeaseStore` holds. -/
abbrev Records := Identifier → Option LeaseRecord

/-- `MemoryStore.CompareAndSwapPrimaryLease`: nothing if the record is refused, else
the records and whether they were swapped. -/
def compareAndSwapRecord (records : Records) (databaseID : Identifier) (previous : Option LeaseRecord) (next : LeaseRecord) :
    Option (Records × Bool) :=
  if !validLeaseRecord next databaseID then none
  else if records databaseID = previous then some (Function.update records databaseID (some next),true)
  else some (records,false)

theorem compareAndSwapRecord_true (h : compareAndSwapRecord records databaseID previous next = some (records',true)) :
    records databaseID = previous ∧ records' = Function.update records databaseID (some next) := by
  unfold compareAndSwapRecord at h
  split_ifs at h with hvalid hcurrent
  · cases h
    exact ⟨hcurrent,rfl⟩
  · cases h

theorem compareAndSwapRecord_false
    (h : compareAndSwapRecord records databaseID previous next = some (records',false)) : records' = records := by
  unfold compareAndSwapRecord at h
  split_ifs at h
  · cases h
  · cases h
    rfl

end Meldbase.PrimaryLease
