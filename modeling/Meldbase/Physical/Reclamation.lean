import Meldbase.Physical.Recovery

/-! # Reclaiming pages

The audit walks the versions that must survive: those of the valid Meta slots and
those pinned by readers.  Whatever it did not visit becomes reusable.  The blocking
form audits and installs in one step; the optimistic form audits a copy of the
state and installs the result if the file is still in the captured state.
-/
namespace Meldbase.Physical
open Storage (TreeKind)
open Logical (maxUint64)

def recoverableRoots (metas : Fin 2 → Option Meta) (metaOK : Fin 2 → Bool) : List ℕ :=
  [0,1].filterMap (fun slot => if metaOK slot then (metas slot).map Meta.rootPage else none)
def pinnedRoots (readers : SortedMap ℕ ReaderPin) : List ℕ := readers.entries.map (fun e => e.2.rootPage)

structure Audit where
  metaSlot : Fin 2
  generation : ℕ
  metas : Fin 2 → Option Meta
  metaOK : Fin 2 → Bool
  nextPage : ℕ
  readers : SortedMap ℕ ReaderPin
  freePages : List ℕ
  freePoolVersion : ℕ

variable (f : File)

def File.audit : Audit where
  metaSlot := f.metaSlot
  generation := f.current.generation
  metas := f.metas
  metaOK := f.metaOK
  nextPage := f.nextPage
  readers := f.readers
  freePages := f.freePages
  freePoolVersion := f.freePoolVersion
def Audit.protectedRoots (a : Audit) : List ℕ :=
  (recoverableRoots a.metas a.metaOK ++ pinnedRoots a.readers).filter (· ≠ 0)

/-- `reachabilityUnlocked`: the walker that visited every protected version.  The
number of file pages bounds the depth of the walk. -/
def Audit.reachability (a : Audit) (pages : ℕ → Option DataPage) (checks : TreeKind → Bytes × Value → Bool) :
    Except StorageError Walker := do
  let w ← a.protectedRoots.foldlM
    (fun w rootPage => Walker.databaseRoot (inFile a.nextPage pages) checks (a.nextPage+1) rootPage w) Walker.new
  if a.freePages.any (fun p => p < 2 || a.nextPage ≤ p || (w.typeOf p).isSome) then .error .corrupt
  else if a.nextPage - 2 < w.visited.length then .error .corrupt
  else .ok w
def Audit.unvisited (a : Audit) (w : Walker) : List ℕ :=
  (List.range' 2 (a.nextPage - 2)).filter (fun p => (w.typeOf p).isNone)
def Audit.scan (a : Audit) (pages : ℕ → Option DataPage) (checks : TreeKind → Bytes × Value → Bool) :
    Except StorageError (List ℕ) := do
  let w ← a.reachability pages checks
  let free := a.unvisited w
  if free.length ≠ a.nextPage - 2 - w.visited.length then .error .corrupt else .ok free

/-- `ReclaimPagesContext`. -/
def File.reclaimPages (checks : TreeKind → Bytes × Value → Bool) : File × Except UpdateError Unit :=
  match f.fatalErr with
  | some e => (f,.error e)
  | none =>
    if !f.opened then (f,.error (.storage .closed))
    else match f.audit.scan f.pages checks with
    | .error e => (f,.error (.storage e))
    | .ok free =>
      let track := f.current.commitSequence ≠ 0 || free ≠ []
      ({ f with
        freePages := free
        freePoolVersion := f.freePoolVersion+1
        freeSpaceTracked := track || f.freeSpaceTracked
        freeSpaceNeedsRebuild := track || f.freeSpaceNeedsRebuild },.ok ())
def File.captureReclamationAudit : Except UpdateError Audit :=
  if !f.opened then .error (.storage .closed)
  else match f.fatalErr with
  | some e => .error e
  | none => .ok f.audit

/-- The captured state is still current; readers may have come and gone. -/
def File.stillAt (token : Audit) : Bool :=
  f.opened && f.fatalErr.isNone && f.current.generation = token.generation && f.nextPage = token.nextPage &&
    f.metaSlot = token.metaSlot && f.metas = token.metas && f.metaOK = token.metaOK &&
    f.freePoolVersion = token.freePoolVersion
def File.installReclamationAudit (token : Audit) (free : List ℕ) (persistFreeSpace : Bool) : File × Bool :=
  if !f.stillAt token then (f,false)
  else
    let track := f.current.commitSequence ≠ 0 || free ≠ []
    ({ f with
      freePages := free
      freePoolVersion := f.freePoolVersion+1
      freeSpaceTracked := persistFreeSpace && (track || f.freeSpaceTracked)
      freeSpaceNeedsRebuild := persistFreeSpace && (track || f.freeSpaceNeedsRebuild) },true)

/-- `PersistFreeSpaceContext`: a generation of its own for an audited pool. -/
def File.persistFreeSpace (faults : ℕ → Option IOFailure) : File × Except UpdateError Unit :=
  if !f.freeSpaceTracked || !f.freeSpaceNeedsRebuild then (f,.ok ())
  else if f.current.commitSequence = 0 then (f,.ok ())
  else f.updateAdvance 0 (.done f.root) faults

/-! ### Reader pins -/

/-- `addReaderPinUnlocked` at the current version.  The counter stays below `2 ^ 64`. -/
def File.addReaderPin (sequence : ℕ) (replay : Bool) : Except StorageError (File × ℕ) :=
  if f.nextPin = maxUint64 then .error .corrupt
  else .ok ({ f with
    nextPin := f.nextPin+1
    readers := f.readers.insert (f.nextPin+1) ⟨f.current.generation,sequence,f.current.rootPage,replay⟩ },f.nextPin+1)
def File.copyReaderPin (pinID : ℕ) : Except StorageError (File × ℕ) :=
  match f.readers.find pinID with
  | none => .error .corrupt
  | some pin =>
    if f.nextPin = maxUint64 then .error .corrupt
    else .ok ({ f with nextPin := f.nextPin+1, readers := f.readers.insert (f.nextPin+1) pin },f.nextPin+1)

/-- A stream that delivered a commit moves its pin to the current version. -/
def File.moveReaderPin (pinID sequence : ℕ) : Except StorageError File :=
  match f.readers.find pinID with
  | none => .error .corrupt
  | some pin =>
    .ok { f with readers := f.readers.insert pinID ⟨f.current.generation,sequence,f.current.rootPage,pin.replay⟩ }
def File.dropReaderPin (pinID : ℕ) : File := { f with readers := f.readers.erase pinID }

end Meldbase.Physical
