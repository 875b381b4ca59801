import Mathlib.Data.Fintype.Order
import Mathlib.Data.List.Lex
import Meldbase.Library.ByteText

/-! # Page format

Constants of the stored format, the errors of the storage layer and the decoded
form of a data page.
-/
namespace Meldbase.Storage

abbrev Byte := Fin 256

/-- Byte strings under `bytes.Compare`, the lexicographic order. -/
abbrev Bytes := List Byte

instance bytesLawful : LawfulBEq Bytes := inferInstance

def pageSize : ℕ := 16*1024
def pageHeaderSize : ℕ := 64
def pageCapacity : ℕ := pageSize - pageHeaderSize

inductive StorageError where
  | corrupt
  | nodeFull
  | keyTooBig
  | storageLimit
  | unsupportedFeature
  | closed
  | cursorClosed
  | documentExists
  | documentConflict
  | duplicateMutation
  | collectionExists
  | indexExists
  | indexNotFound
  | uniqueConflict
  | indexKeyTooLarge
  | duplicateEntry
  | multipleEntries
  | systemMismatch
  | historyLost
  | historyPinned
  | consumerExists
  | consumerNotFound
  | buildExists
  | buildNotFound
  | buildState
  | buildHistoryLost
  deriving DecidableEq, Repr

inductive TreeKind where
  | catalog | primary | secondary | commitLog | indexCatalog | order | system | freeSpace | indexBuildCatalog
  deriving DecidableEq, Repr

/-- A checksum-valid data page: header stamps and decoded content. -/
structure Page (B : Type*) where
  (generation bornSequence : ℕ)
  body : B
  deriving DecidableEq, Repr

end Meldbase.Storage

namespace Meldbase

export Storage (Byte Bytes StorageError)

end Meldbase
