import Meldbase.Physical.Reclamation

/-! # Runs of one file

Every operation on an open file as one transition function, together with the
optimistic audits under way.  A crash may follow any operation.  An update that is
interrupted by a crash is an update with a failing I/O call, followed by the crash:
both leave the same writes behind.
-/
namespace Meldbase.Physical
open Storage (TreeKind)
open Logical (maxUint64)

/-- The file, the captured audits and those whose scan is complete. -/
structure Session where
  file : File
  captured : List Audit
  scanned : List (Audit × List ℕ)

def Session.start (f : File) : Session := ⟨f,[],[]⟩

inductive Operation where
  | update (advance : ℕ) (build : Build DatabaseRoot) (faults : ℕ → Option IOFailure)
  | persistFreeSpace (faults : ℕ → Option IOFailure)
  | read (r : PageReader DataPage Unit)
  | addPin (sequence : ℕ) (replay : Bool)
  | copyPin (pinID : ℕ)
  | movePin (pinID sequence : ℕ)
  | dropPin (pinID : ℕ)
  | reclaim (checks : TreeKind → Bytes × Value → Bool)
  | capture
  | scan (index : ℕ) (checks : TreeKind → Bytes × Value → Bool)
  | install (index : ℕ) (persistFreeSpace : Bool)
  | close
  /-- the process ends; `fates` decides about the writes since the last sync -/
  | crash (fates : List Fate) (maxPhysicalPages : ℕ)

/-- The files a process still holds after an operation failed are as they were. -/
def Session.withFile (s : Session) : Except StorageError File → Session × Except UpdateError Unit
  | .ok f => ({ s with file := f },.ok ())
  | .error e => (s,.error (.storage e))
def File.read {α : Type} (f : File) (r : PageReader DataPage α) : α × File :=
  let (a,cache) := readThrough f.nextPage f.pages r f.cache
  (a,{ f with cache := cache })
def File.unopened (disk : Disk) : File where
  device := ⟨disk,[]⟩
  opened := false
  current := ⟨Logical.zeroIdentifier,0,0,0,0,0,0,0⟩
  root := DatabaseRoot.empty
  metaSlot := 0
  metas := fun _ => none
  metaOK := fun _ => false
  nextPage := 2
  fatalErr := none
  nextPin := 0
  readers := ∅
  cache := PageCache.newPageCache defaultCachedPages
  freePages := []
  freePoolVersion := 0
  freeSpaceTracked := false
  freeSpaceNeedsRebuild := false
  retainedCommitBytes := 0
  maxPhysicalPages := 0
def Session.reopen (disk : Disk) (maxPhysicalPages : ℕ) : Session × Except UpdateError Unit :=
  match openFile disk maxPhysicalPages with
  | .ok f => (.start f,.ok ())
  | .error e => (.start (.unopened disk),.error (.storage e))
def Session.perform (s : Session) : Operation → Session × Except UpdateError Unit
  | .update advance build faults =>
    let (f,outcome) := s.file.updateAdvance advance build faults
    ({ s with file := f },outcome)
  | .persistFreeSpace faults =>
    let (f,outcome) := s.file.persistFreeSpace faults
    ({ s with file := f },outcome)
  | .read r => if s.file.opened then ({ s with file := (s.file.read r).2 },.ok ()) else (s,.error (.storage .closed))
  | .addPin sequence replay =>
    if s.file.opened then s.withFile ((s.file.addReaderPin sequence replay).map Prod.fst) else (s,.error (.storage .closed))
  | .copyPin pinID =>
    if s.file.opened then s.withFile ((s.file.copyReaderPin pinID).map Prod.fst) else (s,.error (.storage .closed))
  | .movePin pinID sequence =>
    if s.file.opened then s.withFile (s.file.moveReaderPin pinID sequence) else (s,.error (.storage .closed))
  | .dropPin pinID => ({ s with file := s.file.dropReaderPin pinID },.ok ())
  | .reclaim checks =>
    let (f,outcome) := s.file.reclaimPages checks
    ({ s with file := f },outcome)
  | .capture =>
    match s.file.captureReclamationAudit with
    | .ok audit => ({ s with captured := s.captured ++ [audit] },.ok ())
    | .error e => (s,.error e)
  | .scan index checks =>
    match s.captured[index]? with
    | none => (s,.ok ())
    | some audit =>
      match audit.scan s.file.pages checks with
      | .ok free => ({ s with scanned := s.scanned ++ [(audit,free)] },.ok ())
      | .error e => (s,.error (.storage e))
  | .install index persist =>
    match s.scanned[index]? with
    | none => (s,.ok ())
    | some (token,free) => ({ s with file := (s.file.installReclamationAudit token free persist).1 },.ok ())
  | .close => ({ s with file := { s.file with opened := false } },.ok ())
  | .crash fates maxPhysicalPages => Session.reopen (s.file.device.crash fates) maxPhysicalPages
def Session.run (s : Session) (ops : List Operation) : Session := ops.foldl (fun t op => (t.perform op).1) s

/-- States a new file reaches by operations that `allowed` accepts. -/
inductive Reaches (allowed : Session → Operation → Prop) : Session → Prop where
  | create (databaseID : {id : Logical.Identifier // id.isZero = false}) (maxPhysicalPages : ℕ) :
    Reaches allowed (.start (createFile databaseID maxPhysicalPages))
  | step {s : Session} (h : Reaches allowed s) (op : Operation) (hop : allowed s op) :
    Reaches allowed (s.perform op).1

theorem Reaches.invariant {allowed : Session → Operation → Prop} {I : Session → Prop}
    (hcreate : ∀ databaseID maxPhysicalPages, I (.start (createFile databaseID maxPhysicalPages)))
    (hstep : ∀ s op, I s → allowed s op → I (s.perform op).1) (h : Reaches allowed s) : I s := by
  induction h with
  | create databaseID maxPhysicalPages => exact hcreate databaseID maxPhysicalPages
  | step _ op hop ih => exact hstep _ op ih hop

end Meldbase.Physical
