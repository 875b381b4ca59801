import Meldbase.Physical.Pages

/-! # The storage device

A file on disk with the writes issued since the last completed `Sync`.  The
process sees all of them; a crash keeps any subset, and any of them may be torn.
A torn page or Meta slot fails its checksum and decodes to nothing.
-/
namespace Meldbase.Physical

/-- What became of an issued write. -/
inductive Fate where
  | lost | torn | whole
  deriving DecidableEq, Repr

inductive Write where
  | page (id : ℕ) (content : DataPage)
  | slot (slot : Fin 2) (content : Meta)
  deriving DecidableEq

/-- Decoded contents of a file; `length` counts its whole pages. -/
structure Disk where
  slots : Fin 2 → Option Meta
  pages : ℕ → Option DataPage
  length : ℕ

namespace Disk

def setPage (d : Disk) (id : ℕ) (content : Option DataPage) : Disk :=
  { d with pages := fun q => if q = id then content else d.pages q, length := max d.length (id+1) }
def setSlot (d : Disk) (slot : Fin 2) (content : Option Meta) : Disk :=
  { d with slots := fun i => if i = slot then content else d.slots i }
def write (d : Disk) : Write × Fate → Disk
  | (_,.lost) => d
  | (.page id _,.torn) => d.setPage id none
  | (.page id content,.whole) => d.setPage id (some content)
  | (.slot slot _,.torn) => d.setSlot slot none
  | (.slot slot content,.whole) => d.setSlot slot (some content)

theorem setPage_other (d : Disk) {id q : ℕ} (content : Option DataPage) (h : q ≠ id) :
    (d.setPage id content).pages q = d.pages q := if_neg h

end Disk

def Write.pageID : Write → Option ℕ
  | .page id _ => some id
  | .slot _ _ => none

structure Device where
  durable : Disk
  pending : List (Write × Fate)

/-- An I/O call that fails, and how much of its write got through. -/
structure IOFailure where
  code : ℕ
  fate : Fate

inductive IOCall where
  | write (w : Write)
  | sync

namespace Device
variable (d : Device)

/-- What the process reads. -/
def view : Disk := d.pending.foldl Disk.write d.durable
def issue : IOCall → Device
  | .write w => { d with pending := d.pending ++ [(w,.whole)] }
  | .sync => ⟨d.view,[]⟩
def issueFailed (failure : IOFailure) : IOCall → Device
  | .write w => { d with pending := d.pending ++ [(w,failure.fate)] }
  | .sync => d

/-- Issues the calls in order and stops at the first one that fails; `faults` says
which of them do, counted from `index`. -/
def perform (faults : ℕ → Option IOFailure) : ℕ → List IOCall → Device → Device × Option IOFailure
  | _, [], d => (d,none)
  | index, call::calls, d =>
    match faults index with
    | some failure => (d.issueFailed failure call,some failure)
    | none => perform faults (index+1) calls (d.issue call)
def crash (fates : List Fate) : Disk := ((d.pending.map Prod.fst).zip fates).foldl Disk.write d.durable

@[simp] theorem view_issue_write (w : Write) : (d.issue (.write w)).view = d.view.write (w,.whole) := by
  simp [view,issue]

@[simp] theorem view_issue_sync : (d.issue .sync).view = d.view := rfl

theorem view_issueFailed_write (failure : IOFailure) (w : Write) :
    (d.issueFailed failure (.write w)).view = d.view.write (w,failure.fate) := by
  simp [view,issueFailed]

end Device

/-! ### Writes that spare a page -/

theorem Disk.write_pages_of_ne (d : Disk) (w : Write) (fate : Fate) {q : ℕ} (h : w.pageID ≠ some q) :
    (d.write (w,fate)).pages q = d.pages q := by
  cases w with
  | page id content =>
    have hq : q ≠ id := fun heq => h (by rw [heq]; rfl)
    cases fate <;> simp [Disk.write,Disk.setPage_other,hq]
  | slot slot content => cases fate <;> rfl

def IOCall.Within (pages : List ℕ) : IOCall → Prop
  | .write w => ∀ id, w.pageID = some id → id ∈ pages
  | .sync => True

theorem Device.perform_pages (faults : ℕ → Option IOFailure)
    (hcalls : ∀ call ∈ calls, call.Within pages) (hq : q ∉ pages) (index : ℕ) (d : Device) :
    (d.perform faults index calls).1.view.pages q = d.view.pages q := by
  induction calls generalizing index d with
  | nil => rfl
  | cons call calls ih =>
    obtain ⟨hcall,hcalls⟩ := List.forall_mem_cons.mp hcalls
    have hne : ∀ w, call = .write w → w.pageID ≠ some q := by
      rintro w rfl hw
      exact hq (hcall q hw)
    rw [Device.perform]
    cases hfault : faults index with
    | some failure =>
      cases call with
      | write w => rw [Device.view_issueFailed_write,Disk.write_pages_of_ne _ _ _ (hne w rfl)]
      | sync => rfl
    | none =>
      rw [ih hcalls]
      cases call with
      | write w => rw [Device.view_issue_write,Disk.write_pages_of_ne _ _ _ (hne w rfl)]
      | sync => rw [Device.view_issue_sync]

end Meldbase.Physical
