import Meldbase.Library.Framing
import Meldbase.Logical.CommitLog

/-! # Commit records as bytes

The byte layout of commit headers and changes, and the descriptors under which
their values stand in a leaf: the value itself, or the head of a chain of overflow
pages.  What was encoded decodes to itself, what was stored loads as itself, and a
descriptor alone tells the length of its value.
-/
namespace Meldbase.Logical
open List
open Outcome (bind_eq_ok guard_eq_ok ok_bind)
open FixedWidth Framing

/-! ### Changes -/

def CommitOperation.code : CommitOperation → Byte
  | .insert => 1
  | .update => 2
  | .delete => 3
  | .catalog => 4
def CommitOperation.ofCode (b : ℕ) : Option CommitOperation :=
  if b = 1 then some .insert
  else if b = 2 then some .update
  else if b = 3 then some .delete
  else if b = 4 then some .catalog
  else none

/-- A document version named by the page of its primary tree. -/
structure RawVersionRef where
  primaryRoot : ℕ
  documentID : Identifier
  deriving DecidableEq

/-- `CommitChange` with its images as bytes and its trees as page numbers. -/
structure RawChange where
  collectionID : ℕ
  collectionName : Bytes
  documentID : Identifier
  operation : CommitOperation
  changedPaths : List Bytes
  (before after : Bytes)
  (beforeRef afterRef : Option RawVersionRef)
  deriving DecidableEq

variable (c : RawChange)

def RawChange.size : ℕ :=
  52+c.collectionName.length+c.before.length+c.after.length + (c.changedPaths.map (fun p => 2+p.length)).sum
def validRawRef (documentID : Identifier) (image : Bytes) : Option RawVersionRef → Bool
  | none => true
  | some r => image.length = 0 && 2 ≤ r.primaryRoot && r.documentID = documentID
def refPage : Option RawVersionRef → ℕ
  | none => 0
  | some r => r.primaryRoot
def RawChange.flags : ℕ :=
  (decide (c.before ≠ [])).toNat+2 * (decide (c.after ≠ [])).toNat+4*c.beforeRef.isSome.toNat+8*c.afterRef.isSome.toNat
def changeWidths : List ℕ := [4,1,1,2,16,4,4,8,8,2,2]
def RawChange.fields : List Bytes :=
  [littleEndian 4 c.collectionID,[c.operation.code],littleEndian 1 c.flags,littleEndian 2 c.changedPaths.length,
    c.documentID.val,littleEndian 4 c.before.length,littleEndian 4 c.after.length,littleEndian 8 (refPage c.beforeRef),
    littleEndian 8 (refPage c.afterRef),littleEndian 2 c.collectionName.length,[0,0]]
def encodePath (path : Bytes) : Bytes := littleEndian 2 path.length ++ path
def RawChange.bytes : Bytes :=
  c.fields.flatten ++ (c.collectionName ++ (c.changedPaths.flatMap encodePath ++ (c.before ++ c.after)))
def decodePaths : ℕ → Option Bytes → Bytes → Except StorageError (List Bytes × Bytes)
  | 0, _, rest => .ok ([],rest)
  | n+1, previous, rest =>
    let length := ofLittleEndian (rest.take 2)
    let tail := rest.drop 2
    let path := tail.take length
    if rest.length < 2 then .error .corrupt
    else if length = 0 || 1024 < length || tail.length < length || !utf8Valid path then .error .corrupt
    else if previous.any (path ≤ ·) then .error .corrupt
    else do
      let (paths,rest) ← decodePaths n (some path) (tail.drop length)
      .ok (path::paths,rest)
def validImageFields (present named : Bool) (length page : ℕ) : Bool :=
  (present == (length ≠ 0)) && (if named then 2 ≤ page && length = 0 else page = 0)

/-- `decodeCommitChange`. -/
def decodeRawChange (encoded : Bytes) : Except StorageError RawChange :=
  match splitFields changeWidths encoded with
  | [collectionID,operation,flags,pathCount,documentID,beforeLength,afterLength,beforeRoot,afterRoot,nameLength,reserved] =>
    let flags := ofLittleEndian flags
    let beforeLength := ofLittleEndian beforeLength
    let afterLength := ofLittleEndian afterLength
    let beforeRoot := ofLittleEndian beforeRoot
    let afterRoot := ofLittleEndian afterRoot
    let nameLength := ofLittleEndian nameLength
    let rest := encoded.drop changeWidths.sum
    if encoded.length < 52 || maxCommitValueBytes < encoded.length || 16 ≤ flags || !allZero reserved then .error .corrupt
    else match CommitOperation.ofCode (ofLittleEndian operation) with
    | none => .error .corrupt
    | some operation =>
      if hid : documentID.length = 16 then
        let documentID : Identifier := ⟨documentID,hid⟩
        if ofLittleEndian collectionID = 0 || (operation ≠ .catalog && documentID.isZero) then .error .corrupt
        else if !validImageFields (flags % 2 = 1) (flags / 4 % 2 = 1) beforeLength beforeRoot ||
            !validImageFields (flags / 2 % 2 = 1) (flags / 8 % 2 = 1) afterLength afterRoot then .error .corrupt
        else if 128 < nameLength || rest.length < nameLength then .error .corrupt
        else if nameLength ≠ 0 && (operation ≠ .catalog || !validCollectionName (rest.take nameLength)) then
          .error .corrupt
        else do
          let (paths,images) ← decodePaths (ofLittleEndian pathCount) none (rest.drop nameLength)
          if beforeLength+afterLength ≠ images.length then .error .corrupt
          else .ok {
            collectionID := ofLittleEndian collectionID
            collectionName := rest.take nameLength
            documentID := documentID
            operation := operation
            changedPaths := paths
            before := images.take beforeLength
            after := images.drop beforeLength
            beforeRef := if flags / 4 % 2 = 1 then some ⟨beforeRoot,documentID⟩ else none
            afterRef := if flags / 8 % 2 = 1 then some ⟨afterRoot,documentID⟩ else none }
      else .error .corrupt
  | _ => .error .corrupt

/-! ### Changes decode to themselves -/

/-- The bounds that the fixed-width fields of the format give. -/
structure RawChange.Fits (c : RawChange) : Prop where
  collectionID : c.collectionID ≤ maxUint32
  beforePage : refPage c.beforeRef ≤ maxUint64
  afterPage : refPage c.afterRef ≤ maxUint64

theorem CommitOperation.ofCode_code (op : CommitOperation) : CommitOperation.ofCode op.code.val = some op := by
  cases op <;> rfl

/-- What `normalizeChangedPaths` leaves: valid paths in strictly ascending order. -/
structure PathsOk (paths : List Bytes) : Prop where
  length_le : paths.length ≤ maxUint16
  valid : ∀ p ∈ paths, validChangedPath p = true
  ascending : paths.IsChain (· < ·)

theorem normalizeChangedPaths_ok (h : normalizeChangedPaths paths = .ok sorted) :
    PathsOk sorted := by
  unfold normalizeChangedPaths at h
  obtain ⟨hguard,h⟩ := guard_eq_ok.mp h
  cases h
  simp only [Bool.or_eq_true,decide_eq_true_eq,not_or,not_lt,Bool.not_eq_true',Bool.not_eq_false] at hguard
  have hsub := (List.insertionSort (· ≤ ·) paths).destutter_sublist (· ≠ ·)
  have hordered : ((paths.insertionSort (· ≤ ·)).destutter (· ≠ ·)).Pairwise (· ≤ ·) :=
    (pairwise_insertionSort (· ≤ ·) paths).sublist hsub
  have hdistinct := isChain_destutter (· ≠ ·) (paths.insertionSort (· ≤ ·))
  constructor
  · have := hsub.length_le
    rw [length_insertionSort] at this
    omega
  · intro p hp
    exact all_eq_true.mp hguard.2 p ((mem_insertionSort _).mp (hsub.subset hp))
  have hchain := hordered.isChain
  rw [isChain_iff_forall_rel_of_append_cons_cons] at hchain hdistinct ⊢
  exact fun a b l1 l2 heq => lt_of_le_of_ne (hchain heq) (hdistinct heq)

theorem length_encodePath (path : Bytes) : (encodePath path).length = 2+path.length := by
  rw [encodePath,length_append,length_littleEndian]

theorem length_flatMap_encodePath (paths : List Bytes) :
    (paths.flatMap encodePath).length = (paths.map (fun p => 2+p.length)).sum := by
  rw [length_flatMap]
  exact congrArg List.sum (map_congr_left (fun p _ => length_encodePath p))

theorem decodePaths_encode (rest : Bytes) (hvalid : ∀ p ∈ paths, validChangedPath p = true)
    (hascending : (previous.toList ++ paths).IsChain (· < ·)) :
    decodePaths paths.length previous (paths.flatMap encodePath ++ rest) = .ok (paths,rest) := by
  induction paths generalizing previous with
  | nil => rfl
  | cons path paths ih =>
    have hpath := hvalid path mem_cons_self
    unfold validChangedPath at hpath
    simp only [Bool.and_eq_true,decide_eq_true_eq] at hpath
    obtain ⟨⟨⟨hne,hlong⟩,hutf⟩,-⟩ := hpath
    have hfits : path.length < 256 ^ 2 := by omega
    have hframe : (path::paths).flatMap encodePath ++ rest =
        littleEndian 2 path.length ++ (path ++ (paths.flatMap encodePath ++ rest)) := by
      simp only [flatMap_cons,encodePath,append_assoc]
    have htake : (littleEndian 2 path.length ++ (path ++ (paths.flatMap encodePath ++ rest))).take 2 =
        littleEndian 2 path.length := take_left' (length_littleEndian 2 _)
    have hdrop : (littleEndian 2 path.length ++ (path ++ (paths.flatMap encodePath ++ rest))).drop 2 =
        path ++ (paths.flatMap encodePath ++ rest) := drop_left' (length_littleEndian 2 _)
    have hprevious : ¬ (previous.any (path ≤ ·) = true) := by
      cases previous with
      | none => simp
      | some p =>
        have hlt : p < path := (isChain_cons_cons.mp hascending).1
        simpa using hlt
    have hrest : ((some path).toList ++ paths).IsChain (· < ·) := by
      cases previous with
      | none => exact hascending
      | some p => exact hascending.of_cons
    have hbounds : ¬ ((decide (path.length = 0) || decide (1024 < path.length) ||
        decide ((path ++ (paths.flatMap encodePath ++ rest)).length < path.length) || !utf8Valid path) = true) := by
      rw [length_append,hutf]
      simp only [Bool.not_true,Bool.or_false,Bool.or_eq_true,decide_eq_true_eq]
      omega
    rw [hframe,length_cons,decodePaths,htake,hdrop,ofLittleEndian_littleEndian hfits,take_left,drop_left]
    dsimp only
    rw [if_neg (by rw [length_append,length_littleEndian]; omega),if_neg hbounds,if_neg hprevious,
      ih (fun p hp => hvalid p (mem_cons_of_mem _ hp)) hrest,ok_bind]

theorem RawChange.fields_widths : c.fields.map List.length = changeWidths := by
  simp [RawChange.fields,changeWidths,c.documentID.property]

theorem RawChange.length_bytes : c.bytes.length = c.size := by
  have hfields : c.fields.flatten.length = 52 := by
    rw [length_flatten,c.fields_widths]
    rfl
  rw [RawChange.bytes,length_append,hfields,length_append,length_append,
    length_flatMap_encodePath,length_append,RawChange.size]
  omega

theorem RawChange.flags_lt : c.flags < 16 := by
  unfold RawChange.flags
  have h1 := Bool.toNat_le (decide (c.before ≠ []))
  have h2 := Bool.toNat_le (decide (c.after ≠ []))
  have h3 := Bool.toNat_le c.beforeRef.isSome
  have h4 := Bool.toNat_le c.afterRef.isSome
  omega

theorem RawChange.flags_bits :
    decide (c.flags % 2 = 1) = decide (c.before ≠ []) ∧ decide (c.flags / 2 % 2 = 1) = decide (c.after ≠ []) ∧
      decide (c.flags / 4 % 2 = 1) = c.beforeRef.isSome ∧ decide (c.flags / 8 % 2 = 1) = c.afterRef.isSome := by
  unfold RawChange.flags
  generalize decide (c.before ≠ []) = b1
  generalize decide (c.after ≠ []) = b2
  generalize c.beforeRef.isSome = b3
  generalize c.afterRef.isSome = b4
  cases b1 <;> cases b2 <;> cases b3 <;> cases b4 <;> exact ⟨rfl,rfl,rfl,rfl⟩

/-- The checks that `encodeCommitChange` has made before it writes. -/
structure RawChange.Encodable (c : RawChange) : Prop where
  collectionID : c.collectionID ≠ 0
  document : c.operation ≠ .catalog → c.documentID.isZero = false
  unnamed : c.operation ≠ .catalog → c.collectionName = []
  name : c.collectionName ≠ [] → validCollectionName c.collectionName = true
  beforeRef : validRawRef c.documentID c.before c.beforeRef = true
  afterRef : validRawRef c.documentID c.after c.afterRef = true
  paths : PathsOk c.changedPaths
  size_le : c.size ≤ maxCommitValueBytes

/-- Page, flag and length of one image are consistent. -/
theorem validImageFields_ref (h : validRawRef documentID image ref = true) :
    validImageFields (decide (image ≠ [])) ref.isSome image.length (refPage ref) = true ∧
      (if ref.isSome = true then some ⟨refPage ref,documentID⟩ else none) = ref := by
  cases ref with
  | none =>
    refine ⟨?_,rfl⟩
    cases image with
    | nil => rfl
    | cons b image => simp [validImageFields,refPage]
  | some r =>
    simp only [validRawRef,Bool.and_eq_true,decide_eq_true_eq] at h
    obtain ⟨⟨hempty,hpage⟩,hdocument⟩ := h
    have himage : image = [] := length_eq_zero_iff.mp hempty
    subst himage
    refine ⟨by simp [validImageFields,refPage,hpage],?_⟩
    rw [Option.isSome_some,if_pos rfl,← hdocument]
    rfl

theorem validCollectionName_length (h : validCollectionName name = true) : name.length ≤ 128 := by
  cases name with
  | nil => exact Nat.zero_le _
  | cons first rest =>
    simp only [validCollectionName,Bool.and_eq_true,decide_eq_true_eq] at h
    rw [length_cons]
    exact h.1.1

theorem decodeRawChange_bytes {c : RawChange} (hfits : c.Fits) (hc : c.Encodable) : decodeRawChange c.bytes = .ok c := by
  have hsize := hc.size_le
  have hlength := c.length_bytes
  have hlimit : maxCommitValueBytes < 256 ^ 4 := by decide
  have hparts : c.size = 52+c.collectionName.length+c.before.length+c.after.length +
      (c.changedPaths.map (fun p => 2+p.length)).sum := rfl
  have hname : c.collectionName.length ≤ 128 := by
    by_cases hempty : c.collectionName = []
    · rw [hempty]
      exact Nat.zero_le _
    · exact validCollectionName_length (hc.name hempty)
  have hcollection : c.collectionID < 256 ^ 4 := lt_of_le_of_lt hfits.collectionID (by decide)
  have hbeforePage : refPage c.beforeRef < 256 ^ 8 := lt_of_le_of_lt hfits.beforePage (by decide)
  have hafterPage : refPage c.afterRef < 256 ^ 8 := lt_of_le_of_lt hfits.afterPage (by decide)
  have hpaths : c.changedPaths.length < 256 ^ 2 := lt_of_le_of_lt hc.paths.length_le (by decide)
  have hflags := c.flags_lt
  obtain ⟨hbit1,hbit2,hbit3,hbit4⟩ := c.flags_bits
  obtain ⟨hbefore,hbeforeRef⟩ := validImageFields_ref hc.beforeRef
  obtain ⟨hafter,hafterRef⟩ := validImageFields_ref hc.afterRef
  have hoperation : ofLittleEndian [c.operation.code] = c.operation.code.val := by
    simp [ofLittleEndian]
  unfold decodeRawChange
  rw [show splitFields changeWidths c.bytes = c.fields from splitFields_flatten c.fields_widths _,
    show c.bytes.drop changeWidths.sum = _ from drop_fields c.fields_widths _]
  unfold RawChange.fields
  dsimp only
  rw [ofLittleEndian_littleEndian (by omega : c.flags < 256 ^ 1),ofLittleEndian_littleEndian hcollection,
    ofLittleEndian_littleEndian hpaths,ofLittleEndian_littleEndian (by omega : c.before.length < 256 ^ 4),
    ofLittleEndian_littleEndian (by omega : c.after.length < 256 ^ 4),ofLittleEndian_littleEndian hbeforePage,
    ofLittleEndian_littleEndian hafterPage,ofLittleEndian_littleEndian (by omega : c.collectionName.length < 256 ^ 2),
    hoperation,CommitOperation.ofCode_code,hbit1,hbit2,hbit3,hbit4]
  have hheader : ¬ ((decide (c.bytes.length < 52) || decide (maxCommitValueBytes < c.bytes.length) ||
      decide (16 ≤ c.flags) || !allZero [0,0]) = true) := by
    rw [hlength]
    simp only [allZero,all_cons,all_nil,decide_true,Bool.and_true,Bool.not_true,Bool.or_false,
      Bool.or_eq_true,decide_eq_true_eq]
    omega
  have hdocument : ¬ ((decide (c.collectionID = 0) ||
      (decide (c.operation ≠ .catalog) && c.documentID.isZero)) = true) := by
    simp only [Bool.or_eq_true,decide_eq_true_eq,Bool.and_eq_true,not_or,not_and,Bool.not_eq_true]
    exact ⟨hc.collectionID,hc.document⟩
  have hlong : ¬ ((decide (128 < c.collectionName.length) ||
      decide ((c.collectionName ++ (c.changedPaths.flatMap encodePath ++ (c.before ++ c.after))).length <
        c.collectionName.length)) = true) := by
    rw [length_append]
    simp only [Bool.or_eq_true,decide_eq_true_eq]
    omega
  have hnamed : ¬ ((decide (c.collectionName.length ≠ 0) &&
      (decide (c.operation ≠ .catalog) || !validCollectionName c.collectionName)) = true) := by
    simp only [Bool.and_eq_true,Bool.or_eq_true,decide_eq_true_eq,not_and,not_or,Bool.not_eq_true',Bool.not_eq_false,
      not_not,ne_eq,length_eq_zero_iff]
    exact fun hne => ⟨not_not.mp (fun hop => hne (hc.unnamed hop)),hc.name hne⟩
  have hdecoded : decodePaths c.changedPaths.length none
      (c.changedPaths.flatMap encodePath ++ (c.before ++ c.after)) = .ok (c.changedPaths,c.before ++ c.after) :=
    decodePaths_encode _ hc.paths.valid hc.paths.ascending
  have hbeforeFlag : (c.flags / 4 % 2 = 1) = (c.beforeRef.isSome = true) := by rw [← hbit3,decide_eq_true_eq]
  have hafterFlag : (c.flags / 8 % 2 = 1) = (c.afterRef.isSome = true) := by rw [← hbit4,decide_eq_true_eq]
  rw [if_neg hheader]
  dsimp only
  rw [dif_pos c.documentID.property,if_neg hdocument,hbefore,hafter,if_neg (by simp),if_neg hlong,take_left,
    if_neg hnamed,drop_left,hdecoded,ok_bind]
  dsimp only
  rw [if_neg (by simp),take_left,drop_left]
  simp only [hbeforeFlag,hafterFlag,hbeforeRef,hafterRef]

/-! ### Headers -/

def commitMagic : Bytes := [77,69,76,68,67,77,84,50]

structure RawHeader where
  transactionID : Identifier
  (committedAt count catalogRoot : ℕ)
  digest : Bytes
  deriving DecidableEq

def headerWidths : List ℕ := [8,2,6,8,16,8,4,4,8,32]
def RawHeader.fields (sequence : ℕ) (h : RawHeader) : List Bytes :=
  [commitMagic,littleEndian 2 formatVersion,List.replicate 6 0,littleEndian 8 sequence,h.transactionID.val,
    littleEndian 8 h.committedAt,littleEndian 4 h.count,List.replicate 4 0,littleEndian 8 h.catalogRoot,h.digest]
def RawHeader.bytes (sequence : ℕ) (h : RawHeader) : Bytes := (h.fields sequence).flatten

/-- The header checks of `readCommitUsing`. -/
def decodeRawHeader (sequence : ℕ) (header : Bytes) : Except StorageError RawHeader :=
  match splitFields headerWidths header with
  | [magic,version,reserved,number,transactionID,committedAt,count,padding,catalogRoot,digest] =>
    if header.length ≠ commitHeaderBytes || magic ≠ commitMagic || ofLittleEndian version ≠ formatVersion ||
        !allZero reserved || ofLittleEndian number ≠ sequence || !allZero padding then .error .corrupt
    else if ofLittleEndian count = 0 then .error .corrupt
    else if ofLittleEndian catalogRoot ≠ 0 && ofLittleEndian catalogRoot < 2 then .error .corrupt
    else if hid : transactionID.length = 16 then
      let transactionID : Identifier := ⟨transactionID,hid⟩
      if transactionID.isZero then .error .corrupt
      else .ok ⟨transactionID,ofLittleEndian committedAt,ofLittleEndian count,ofLittleEndian catalogRoot,digest⟩
    else .error .corrupt
  | _ => .error .corrupt

/-- A header that `appendCommitToTree` writes. -/
structure RawHeader.Encodable (sequence : ℕ) (h : RawHeader) : Prop where
  sequence_le : sequence ≤ maxUint64
  committedAt_le : h.committedAt ≤ maxUint64
  count_le : h.count ≤ maxUint32
  count_ne : h.count ≠ 0
  catalog : h.catalogRoot = 0 ∨ (2 ≤ h.catalogRoot ∧ h.catalogRoot ≤ maxUint64)
  transaction : h.transactionID.isZero = false
  digest : h.digest.length = 32

theorem RawHeader.fields_widths {sequence : ℕ} {h : RawHeader} (hdigest : h.digest.length = 32) :
    (h.fields sequence).map List.length = headerWidths := by
  simp [RawHeader.fields,headerWidths,commitMagic,h.transactionID.property,hdigest]

theorem RawHeader.length_bytes {sequence : ℕ} {h : RawHeader} (hdigest : h.digest.length = 32) :
    (h.bytes sequence).length = commitHeaderBytes := by
  rw [RawHeader.bytes,length_flatten,RawHeader.fields_widths hdigest]
  rfl

theorem decodeRawHeader_bytes {sequence : ℕ} {h : RawHeader} (hh : h.Encodable sequence) :
    decodeRawHeader sequence (h.bytes sequence) = .ok h := by
  have hwidths : (h.fields sequence).map List.length = headerWidths := RawHeader.fields_widths hh.digest
  have hsplit : splitFields headerWidths (h.bytes sequence) = h.fields sequence := by
    have := splitFields_flatten hwidths []
    rwa [append_nil] at this
  have hsequence : sequence < 256 ^ 8 := lt_of_le_of_lt hh.sequence_le (by decide)
  have hcommitted : h.committedAt < 256 ^ 8 := lt_of_le_of_lt hh.committedAt_le (by decide)
  have hcount : h.count < 256 ^ 4 := lt_of_le_of_lt hh.count_le (by decide)
  have hcatalog : h.catalogRoot < 256 ^ 8 := by
    rcases hh.catalog with hzero | ⟨-,hle⟩
    · rw [hzero]
      decide
    · exact lt_of_le_of_lt hle (by decide)
  have hroot : ¬ ((decide (h.catalogRoot ≠ 0) && decide (h.catalogRoot < 2)) = true) := by
    simp only [Bool.and_eq_true,decide_eq_true_eq]
    have := hh.catalog
    omega
  unfold decodeRawHeader
  rw [hsplit]
  unfold RawHeader.fields
  dsimp only
  rw [ofLittleEndian_littleEndian (by decide : formatVersion < 256 ^ 2),ofLittleEndian_littleEndian hsequence,
    ofLittleEndian_littleEndian hcommitted,ofLittleEndian_littleEndian hcount,ofLittleEndian_littleEndian hcatalog,
    RawHeader.length_bytes hh.digest,if_neg (by simp [allZero]),if_neg hh.count_ne,if_neg hroot,
    dif_pos h.transactionID.property]
  have htransaction : ¬ (h.transactionID.isZero = true) := by simp [hh.transaction]
  rw [if_neg htransaction]

/-! ### Stored values -/

def inlineCommitValueLimit : ℕ := 8*1024
def overflowChunkBytes : ℕ := Storage.pageSize - Storage.pageHeaderSize - 16

/-- A page of type `PageCommitOverflow` with no flags and one item. -/
structure OverflowPage where
  link : ℕ
  payload : Bytes
  deriving DecidableEq

def overflowPayload (total index chunks : ℕ) (piece : Bytes) : Bytes :=
  [littleEndian 8 total,littleEndian 4 index,littleEndian 4 chunks].flatten ++ piece
def overflowPages (total chunks : ℕ) : ℕ → List ℕ → List Bytes → List (ℕ × OverflowPage)
  | index, id::ids, piece::rest =>
    (id,⟨ids.headD 0,overflowPayload total index chunks piece⟩) :: overflowPages total chunks (index+1) ids rest
  | _, _, _ => []
def overflowChunks (length : ℕ) : ℕ := (length + overflowChunkBytes - 1) / overflowChunkBytes

section Stored

-- SHA-256, of which only its length matters
variable (checksum : Bytes → Bytes) {pages : ℕ → Option OverflowPage}

/-- `storeCommitValue` with the pages that `allocatePageIDs` has given it. -/
def storeCommitValue (pageIDs : List ℕ) (value : Bytes) : Except StorageError (Bytes × List (ℕ × OverflowPage)) :=
  if maxCommitValueBytes < value.length then .error .corrupt
  else if value.length+1 ≤ inlineCommitValueLimit then .ok (0::value,[])
  else
    let chunks := overflowChunks value.length
    .ok (1 :: [littleEndian 8 value.length,littleEndian 8 (pageIDs.headD 0),checksum value].flatten,
      overflowPages value.length chunks 0 pageIDs (pieces overflowChunkBytes chunks value))

/-- The page loop of `loadCommitValue`.  An index is a 32-bit word below the chunk
count, so `2 ^ 32` rounds are enough. -/
def loadChunks (pages : ℕ → Option OverflowPage) (total : ℕ) :
    ℕ → ℕ → ℕ → List ℕ → ℕ → Bytes → Except StorageError Bytes
  | 0, _, _, _, _, _ => .error .corrupt
  | fuel+1, index, expected, seen, pageID, result =>
    if total ≤ result.length then .ok result
    else if pageID ∈ seen then .error .corrupt
    else match pages pageID with
    | none => .error .corrupt
    | some page =>
      match splitFields [8,4,4] page.payload with
      | [length,ordinal,count] =>
        let chunks := ofLittleEndian count
        let data := page.payload.drop 16
        if page.payload.length < 16 || ofLittleEndian length ≠ total || ofLittleEndian ordinal ≠ index then .error .corrupt
        else if chunks = 0 || (0 < index && chunks ≠ expected) || chunks ≤ index then .error .corrupt
        else if total < result.length+data.length then .error .corrupt
        else if index+1 = chunks then
          if page.link ≠ 0 || result.length+data.length ≠ total then .error .corrupt else .ok (result ++ data)
        else if page.link < 2 then .error .corrupt
        else loadChunks pages total fuel (index+1) chunks (pageID::seen) page.link (result ++ data)
      | _ => .error .corrupt
def overflowDescriptor (body : Bytes) : Except StorageError (ℕ × ℕ × Bytes) :=
  match splitFields [8,8,32] body with
  | [total,page,sum] =>
    if body.length ≠ 48 then .error .corrupt
    else if ofLittleEndian total < inlineCommitValueLimit || maxCommitValueBytes < ofLittleEndian total ||
        ofLittleEndian page < 2 then .error .corrupt
    else .ok (ofLittleEndian total,ofLittleEndian page,sum)
  | _ => .error .corrupt
def loadCommitValue (pages : ℕ → Option OverflowPage) : Bytes → Except StorageError Bytes
  | [] => .error .corrupt
  | tag::body =>
    if tag = 0 then .ok body
    else if tag ≠ 1 then .error .corrupt
    else do
      let (total,page,sum) ← overflowDescriptor body
      let result ← loadChunks pages total (2 ^ 32) 0 0 [] page []
      if sum ≠ checksum result then .error .corrupt else .ok result

/-- `storedCommitLogicalBytes` on a descriptor. -/
def descriptorLogicalBytes : Bytes → Except StorageError ℕ
  | [] => .error .corrupt
  | tag::body =>
    if tag = 0 then .ok body.length
    else if tag ≠ 1 then .error .corrupt
    else do
      let (total,_,_) ← overflowDescriptor body
      .ok total

theorem loadChunks_length (hle : result.length ≤ total)
    (h : loadChunks pages total fuel index expected seen pageID result = .ok value) : value.length = total := by
  induction fuel generalizing index expected seen pageID result with
  | zero => cases h
  | succ fuel ih =>
    unfold loadChunks at h
    split_ifs at h with hdone hseen
    · cases h
      omega
    split at h
    · cases h
    rename_i page hpage
    split at h
    · rename_i length ordinal count _
      dsimp only at h
      obtain ⟨-,h⟩ := guard_eq_ok.mp h
      obtain ⟨-,h⟩ := guard_eq_ok.mp h
      obtain ⟨hfits,h⟩ := guard_eq_ok.mp h
      split_ifs at h with hlast hwrong hlink
      · cases h
        simp only [Bool.or_eq_true,decide_eq_true_eq,not_or,not_not] at hwrong
        rw [length_append]
        exact hwrong.2
      · exact ih (by rw [length_append]; omega) h
    · cases h

theorem descriptorLogicalBytes_of_load
    (h : loadCommitValue checksum pages stored = .ok value) : descriptorLogicalBytes stored = .ok value.length := by
  cases stored with
  | nil => cases h
  | cons tag body =>
    unfold loadCommitValue at h
    unfold descriptorLogicalBytes
    dsimp only at h ⊢
    split_ifs at h ⊢ with hinline hoverflow
    · cases h
      rfl
    obtain ⟨⟨total,page,sum⟩,hdescriptor,h⟩ := bind_eq_ok.mp h
    obtain ⟨result,hresult,h⟩ := bind_eq_ok.mp h
    obtain ⟨-,h⟩ := guard_eq_ok.mp h
    cases h
    rw [hdescriptor,ok_bind,loadChunks_length (Nat.zero_le _) hresult]

/-- The loop follows the chain of a stored value to its end. -/
theorem loadChunks_overflowPages (hpages : ∀ e ∈ overflowPages total chunks index ids ps, pages e.1 = some e.2)
    (hlength : ids.length = ps.length) (hne : ps ≠ []) (hpieces : ∀ p ∈ ps, p ≠ [])
    (hids : (seen ++ ids).Nodup) (htwo : ∀ id ∈ ids, 2 ≤ id) (htotal : result.length+ps.flatten.length = total)
    (hcount : index+ps.length = chunks) (hexpected : 0 < index → expected = chunks) (hfuel : ps.length ≤ fuel)
    (hwide : total < 256 ^ 8) (hnarrow : chunks < 256 ^ 4) :
    loadChunks pages total fuel index expected seen (ids.headD 0) result = .ok (result ++ ps.flatten) := by
  induction ps generalizing fuel index expected seen ids result with
  | nil => exact absurd rfl hne
  | cons p ps ih =>
    obtain ⟨id,ids,rfl⟩ : ∃ id rest, ids = id::rest := by
      cases ids with
      | nil => simp at hlength
      | cons id rest => exact ⟨id,rest,rfl⟩
    obtain ⟨fuel,rfl⟩ : ∃ n, fuel = n+1 := ⟨fuel - 1,by rw [length_cons] at hfuel; omega⟩
    simp only [length_cons,flatten_cons,length_append] at hlength htotal hcount hfuel
    have hp := length_pos_iff.mpr (hpieces p mem_cons_self)
    have hpage : pages id = some ⟨ids.headD 0,overflowPayload total index chunks p⟩ :=
      hpages (id,_) mem_cons_self
    have hwidths : [littleEndian 8 total,littleEndian 4 index,littleEndian 4 chunks].map List.length = [8,4,4] := by simp
    have hfields : splitFields [8,4,4] (overflowPayload total index chunks p) =
        [littleEndian 8 total,littleEndian 4 index,littleEndian 4 chunks] := splitFields_flatten hwidths p
    have hdata : (overflowPayload total index chunks p).drop 16 = p := drop_fields hwidths p
    have hunseen : id ∉ seen := fun hmem => disjoint_of_nodup_append hids hmem mem_cons_self
    have hpayload : (overflowPayload total index chunks p).length = 16+p.length := by
      simp [overflowPayload]
      omega
    unfold loadChunks
    rw [if_neg (by omega),headD_cons,if_neg hunseen,hpage]
    dsimp only
    rw [hfields]
    dsimp only
    rw [ofLittleEndian_littleEndian hwide,ofLittleEndian_littleEndian (by omega : index < 256 ^ 4),
      ofLittleEndian_littleEndian hnarrow,hdata,hpayload,if_neg (by simp),if_neg (by simp; omega),if_neg (by omega)]
    cases ps with
    | nil =>
      obtain rfl : ids = [] := length_eq_zero_iff.mp (by simpa using hlength)
      simp only [flatten_nil,length_nil,Nat.add_zero] at htotal hcount
      rw [if_pos (by omega),if_neg (by simp; omega),flatten_cons,flatten_nil,append_nil]
    | cons q ps =>
      obtain ⟨next,rest,rfl⟩ : ∃ next rest, ids = next::rest := by
        cases ids with
        | nil => simp at hlength
        | cons next rest => exact ⟨next,rest,rfl⟩
      have hnext : 2 ≤ next := htwo next (mem_cons_of_mem _ mem_cons_self)
      rw [if_neg (by rw [length_cons] at hcount; omega),if_neg (by rw [headD_cons]; omega)]
      have hrest : loadChunks pages total fuel (index+1) chunks (id::seen) ((next::rest).headD 0) (result ++ p) =
          .ok (result ++ p ++ (q::ps).flatten) :=
        ih (fun e he => hpages e (mem_cons_of_mem _ he)) (by omega) (by simp)
          (fun r hr => hpieces r (mem_cons_of_mem _ hr)) (perm_middle.nodup_iff.mp hids)
          (fun r hr => htwo r (mem_cons_of_mem _ hr)) (by rw [length_append]; omega) (by omega) (fun _ => rfl)
          (by omega)
      rw [hrest,append_assoc]
      rfl

/-- Pages that an allocation can hand out for a value too long to stand inline. -/
structure PagesFor (pageIDs : List ℕ) (length : ℕ) : Prop where
  count : pageIDs.length = overflowChunks length
  nodup : pageIDs.Nodup
  two_le : ∀ id ∈ pageIDs, 2 ≤ id
  le : ∀ id ∈ pageIDs, id ≤ maxUint64

theorem loadChunks_store (hids : PagesFor pageIDs value.length) (hlarge : inlineCommitValueLimit ≤ value.length)
    (hlimit : value.length ≤ maxCommitValueBytes)
    (hpages : ∀ e ∈ overflowPages value.length (overflowChunks value.length) 0 pageIDs
      (pieces overflowChunkBytes (overflowChunks value.length) value), pages e.1 = some e.2) :
    loadChunks pages value.length (2 ^ 32) 0 0 [] (pageIDs.headD 0) [] = .ok value ∧
      2 ≤ pageIDs.headD 0 ∧ pageIDs.headD 0 < 256 ^ 8 := by
  have hmax : maxCommitValueBytes = 67108864 := by decide
  have hsmall : inlineCommitValueLimit = 8192 := by decide
  have hchunk : overflowChunkBytes = 16304 := by decide
  have hchunks : overflowChunks value.length = (value.length+16303) / 16304 := by
    rw [overflowChunks,hchunk]
    rfl
  have hcover : value.length ≤ overflowChunks value.length*overflowChunkBytes := by
    rw [hchunks,hchunk]
    omega
  have hshort : overflowChunks value.length*overflowChunkBytes < value.length+overflowChunkBytes := by
    rw [hchunks,hchunk]
    omega
  have hcount := hids.count
  have hne : pageIDs ≠ [] := by
    rintro rfl
    rw [hchunks,length_nil] at hcount
    omega
  obtain ⟨first,rest,rfl⟩ := exists_cons_of_ne_nil hne
  have hpieces := length_pieces overflowChunkBytes (overflowChunks value.length) value
  refine ⟨?_,hids.two_le first mem_cons_self,lt_of_le_of_lt (hids.le first mem_cons_self) (by decide)⟩
  have hloaded : loadChunks pages value.length (2 ^ 32) 0 0 [] ((first::rest).headD 0) [] =
      .ok ([] ++ (pieces overflowChunkBytes (overflowChunks value.length) value).flatten) := by
    refine loadChunks_overflowPages hpages (by rw [hpieces,hcount]) ?_ ?_ hids.nodup hids.two_le ?_ ?_ (by omega) ?_ ?_ ?_
    · intro hnil
      rw [hnil,length_nil] at hpieces
      rw [← hpieces] at hcount
      cases hcount
    · exact fun p hp => pieces_ne_nil (by rw [hchunk]; decide) hshort hp
    · rw [flatten_pieces hcover,length_nil,Nat.zero_add]
    · rw [hpieces,Nat.zero_add]
    · rw [hpieces,hchunks]
      omega
    · omega
    · rw [hchunks]
      omega
  rwa [flatten_pieces hcover,nil_append] at hloaded

theorem splitFields_descriptor (total page : ℕ) {sum : Bytes} (hsum : sum.length = 32) :
    splitFields [8,8,32] [littleEndian 8 total,littleEndian 8 page,sum].flatten = [littleEndian 8 total,littleEndian 8 page,sum] ∧
      [littleEndian 8 total,littleEndian 8 page,sum].flatten.length = 48 := by
  have hwidths : [littleEndian 8 total,littleEndian 8 page,sum].map List.length = [8,8,32] := by simp [hsum]
  refine ⟨?_,by rw [length_flatten,hwidths]; rfl⟩
  have hsplit := splitFields_flatten hwidths []
  rwa [append_nil] at hsplit

theorem loadCommitValue_store (hsum : (checksum value).length = 32)
    (hallocated : inlineCommitValueLimit ≤ value.length → PagesFor pageIDs value.length)
    (hstore : storeCommitValue checksum pageIDs value = .ok (stored,written))
    (hpages : ∀ e ∈ written, pages e.1 = some e.2) : loadCommitValue checksum pages stored = .ok value := by
  unfold storeCommitValue at hstore
  obtain ⟨hlimit,hstore⟩ := guard_eq_ok.mp hstore
  split_ifs at hstore with hinline
  · cases hstore
    rfl
  cases hstore
  have hlarge : inlineCommitValueLimit ≤ value.length := by omega
  obtain ⟨hloaded,htwo,hfirst⟩ := loadChunks_store (hallocated hlarge) hlarge (not_lt.mp hlimit) hpages
  obtain ⟨hsplit,hlength⟩ := splitFields_descriptor value.length (pageIDs.headD 0) hsum
  have hwide : value.length < 256 ^ 8 := lt_of_le_of_lt (not_lt.mp hlimit) (by decide)
  have hdescriptor : overflowDescriptor [littleEndian 8 value.length,littleEndian 8 (pageIDs.headD 0),checksum value].flatten =
      .ok (value.length,pageIDs.headD 0,checksum value) := by
    unfold overflowDescriptor
    rw [hsplit]
    dsimp only
    rw [hlength,ofLittleEndian_littleEndian hwide,ofLittleEndian_littleEndian hfirst,if_neg (by simp),if_neg]
    simp only [Bool.or_eq_true,decide_eq_true_eq]
    omega
  unfold loadCommitValue
  dsimp only
  rw [if_neg (by decide),if_neg (by decide),hdescriptor,ok_bind]
  dsimp only
  rw [hloaded,ok_bind,if_neg (by simp)]

end Stored
end Meldbase.Logical
